import SpeechGrammar.Proofs.Compilability

/-!
# Why a rule cannot be compiled

Where a rule cannot be compiled, the error names what stands in its way (`Blames`). Some rule that can be reached has a
reference to a grammar that is not known, to a rule that is not there, or to a private rule of another grammar, or rules
that can be reached include one another in a circle.

The path of a build is a way from the first rule to the present one on which no rule comes twice (`Way`). If a reference
leads back to the path, the part of the path from there on is a circle, with nothing of what led into it
(`Environment.Way.blames_circle`). So every error of a build names a culprit (**`Environment.blames_of_ruleBody`**), and
so does every error of a compilation in a workspace (**`Workspace.compile_blames`**).
-/

namespace SpeechGrammar

open Relation (ReflTransGen)

section

variable (lookup : String → Option Snapshot)

/-- Some reference in the first rule leads to the second. -/
def Includes (source target : RuleId) : Prop :=
  ∃ r, Mentions lookup source r ∧ Resolves lookup source r ∧ target = source.target r

/-- The error is about rules and references that are reached from the rule `start`. -/
inductive Blames (display : RuleId → String) (start : RuleId) : GrammarError → Prop
  /-- Each rule of the path includes the next one. The last is the first one again, and no other comes twice. -/
  | cyclicReference {first : RuleId} {others : List RuleId} :
      ReflTransGen (Includes lookup) start first → (first :: others ++ [first]).IsChain (Includes lookup) →
      (first :: others).Nodup → Blames display start (.cyclicReference ((first :: others ++ [first]).map display))
  /-- The grammar that the reference leads to is there, and the rule is not. -/
  | undefinedReference {source : RuleId} {r : Reference} {s : Snapshot} :
      ReflTransGen (Includes lookup) start source → Mentions lookup source r →
      lookup (source.target r).grammar = some s → s.rule? r.rule = none →
      Blames display start (.undefinedReference source.rule r)
  /-- The reference is to a grammar that is not there. -/
  | unknownGrammar {source : RuleId} {r : Reference} {grammar : String} :
      ReflTransGen (Includes lookup) start source → Mentions lookup source r → r.grammar = some grammar →
      lookup grammar = none → Blames display start (.unknownGrammar grammar)
  /-- The reference is to a private rule of another grammar. -/
  | notPublic {source : RuleId} {r : Reference} {rule : Rule} :
      ReflTransGen (Includes lookup) start source → Mentions lookup source r →
      ruleOf? lookup (source.target r) = some rule → rule.isPublic = false →
      (source.target r).grammar ≠ source.grammar →
      Blames display start (.notPublic (display (source.target r)) .foreignReference)

end

namespace Environment

section

variable {env : Environment} {path : List RuleId} {start source target : RuleId} {rule : Rule} {r : Reference}
  {e : GrammarError}

theorem includes_of_resolve (hr : Mentions env.grammar? source r) (h : env.resolve source r = .ok (target, rule)) :
    Includes env.grammar? source target := by
  obtain ⟨rfl, -, -⟩ := resolve_eq_ok_iff.mp h
  exact ⟨r, hr, resolves_iff.mpr ⟨rule, h⟩, rfl⟩

/-! ## References that lead nowhere -/

/-- A reference that fails is to blame itself. -/
theorem blames_of_resolve (hsource : ReflTransGen (Includes env.grammar?) start source)
    (hr : Mentions env.grammar? source r) (h : env.resolve source r = .error e) :
    Blames env.grammar? env.displayName start e := by
  simp only [resolve] at h
  split at h
  · rename_i hunknown
    cases h
    cases hgrammar : r.grammar with
    | some grammar =>
      rw [hgrammar] at hunknown
      exact .unknownGrammar hsource hr hgrammar hunknown
    | none =>
      -- the grammar of the rule itself is known
      obtain ⟨rule, hrule, -⟩ := hr
      obtain ⟨s, hs, -⟩ := Option.bind_eq_some_iff.mp hrule
      rw [hgrammar, Option.getD_none, hs] at hunknown
      cases hunknown
  · rename_i s hs
    split at h
    · rename_i hundefined
      cases h
      exact .undefinedReference hsource hr hs hundefined
    · rename_i rule hrule
      split at h
      · rename_i hbarred
        cases h
        exact .notPublic hsource hr (rule_of_grammar? hs hrule) hbarred.2 hbarred.1
      · cases h

/-! ## Circles -/

/-- The rules on the path include one another in turn from `start` to `source`, and none of them comes twice. -/
structure Way (env : Environment) (start : RuleId) (path : List RuleId) (source : RuleId) : Prop where
  chain : path.IsChain (Includes env.grammar?)
  last : path.getLast? = some source
  distinct : path.Nodup
  reached : ∀ id ∈ path, ReflTransGen (Includes env.grammar?) start id

theorem Way.single (env : Environment) (start : RuleId) : env.Way start [start] start where
  chain := .singleton start
  last := rfl
  distinct := List.nodup_singleton start
  reached := List.forall_mem_singleton.mpr .refl

theorem Way.source_reached (h : env.Way start path source) : ReflTransGen (Includes env.grammar?) start source :=
  h.reached source (List.mem_of_getLast? h.last)

/-- What joins a chain that ends with the present rule is included in this rule. -/
theorem Way.join (h : path.getLast? = some source) (ht : Includes env.grammar? source target) :
    ∀ x ∈ path.getLast?, ∀ y ∈ [target].head?, Includes env.grammar? x y := by
  intro x hx y hy
  obtain rfl : x = source := Option.some.inj (hx.symm.trans h)
  obtain rfl : y = target := (Option.some.inj hy).symm
  exact ht

/-- A new rule makes the way longer. -/
theorem Way.step (h : env.Way start path source) (ht : Includes env.grammar? source target) (hnew : target ∉ path) :
    env.Way start (path ++ [target]) target where
  chain := h.chain.append (.singleton target) (Way.join h.last ht)
  last := List.getLast?_concat
  distinct := by
    rw [← List.concat_eq_append]
    exact h.distinct.concat hnew
  reached := by
    refine List.forall_mem_append.mpr ⟨h.reached, List.forall_mem_singleton.mpr ?_⟩
    exact h.source_reached.tail ht

/-- The circle that is reported starts where the rule was met first. -/
theorem cycle_append {before others : List RuleId} (hbefore : target ∉ before) :
    env.cycle (before ++ target :: others) target = (target :: others ++ [target]).map env.displayName := by
  have hother : ∀ id ∈ before, (id != target) = true := fun id hid => bne_iff_ne.mpr (ne_of_mem_of_not_mem hid hbefore)
  rw [cycle, List.dropWhile_append_of_pos hother, List.dropWhile_cons_of_neg (by simp)]

/-- A rule that is met again on the way to it closes a circle. -/
theorem Way.blames_circle (h : env.Way start path source) (ht : Includes env.grammar? source target)
    (hmem : target ∈ path) : Blames env.grammar? env.displayName start (.cyclicReference (env.cycle path target)) := by
  obtain ⟨before, others, rfl, hbefore⟩ := List.eq_append_cons_of_mem hmem
  have hlast : (target :: others).getLast? = some source := by
    rw [← h.last, List.getLast?_append_of_ne_nil before (List.cons_ne_nil target others)]
  have hchain : (target :: others).IsChain (Includes env.grammar?) := h.chain.suffix (List.suffix_append _ _)
  rw [cycle_append hbefore]
  exact .cyclicReference (h.reached target hmem) (hchain.append (.singleton target) (Way.join hlast ht))
    (h.distinct.sublist (List.sublist_append_right _ _))

/-! ## Rules that cannot be built -/

/-- **An error of a build names a culprit**, when no body has a fault. -/
theorem blames_of_ruleBody (hbodies : ∀ id rule, ruleOf? env.grammar? id = some rule → rule.body.fault? = none)
    (hway : env.Way start path source) (hrule : ruleOf? env.grammar? source = some rule)
    (h : env.ruleBody path source rule = .error e) : Blames env.grammar? env.displayName start e := by
  induction path, source, rule using ruleBody.induct env with
  | case1 path source rule ih =>
    rw [ruleBody_eq] at h
    obtain ⟨r, hr, hvisit⟩ := error_of_patternOf (hbodies source rule hrule) h
    have hmentions : Mentions env.grammar? source r := ⟨rule, hrule, hr⟩
    split at hvisit
    · rename_i hres
      cases hvisit
      exact blames_of_resolve hway.source_reached hmentions hres
    · rename_i target q hres
      have hincludes : Includes env.grammar? source target := includes_of_resolve hmentions hres
      split at hvisit
      · rename_i hmem
        cases hvisit
        exact hway.blames_circle hincludes hmem
      · rename_i hnew
        exact ih r target q hres hnew (hway.step hincludes hnew) (resolve_eq_ok_iff.mp hres).2.1
          (error_of_map_eq_error hvisit)

/-- If a rule of the starting grammar has no pattern, the error names a culprit. -/
theorem blames_of_pattern (hbodies : ∀ id rule, ruleOf? env.grammar? id = some rule → rule.body.fault? = none)
    {name : String} (hname : (env.start.rule? name).isSome = true) (h : env.pattern name = .error e) :
    Blames env.grammar? env.displayName ⟨env.start.name, name⟩ e := by
  obtain ⟨rule, hr⟩ := Option.isSome_iff_exists.mp hname
  simp only [pattern, hr] at h
  exact blames_of_ruleBody hbodies (.single env _) ((rule?_start env name).symm.trans hr) h

end

end Environment

/-! ## Compiling in a workspace -/

namespace Workspace

variable {w : Workspace} {g : Grammar}

/-- **Where a rule that is there cannot be compiled, the error names a culprit**, in every workspace that there can be.
So it is not that the rule is undefined, nor that some rule is invalid. -/
theorem compile_blames (hw : w.Reachable) (hg : g ∈ w.grammars) {name : String} {e : GrammarError}
    (hname : (g.committed.rule? name).isSome = true) (h : w.compile g name = .error e) :
    Blames (w.lookup g) (w.environment g).displayName ⟨g.name, name⟩ e ∧
      (∀ rule, e ≠ .undefinedRule rule) ∧ ∀ rule fault, e ≠ .invalidRule rule fault := by
  have hlookup := grammar?_environment hw.sound g
  have hbodies : ∀ id rule, ruleOf? (w.environment g).grammar? id = some rule → rule.body.fault? = none := by
    rw [hlookup]
    exact fun id rule => body_of_ruleOf? hw.sound hg
  have hblames := Environment.blames_of_pattern hbodies hname (Environment.error_of_map_eq_error h)
  rw [hlookup] at hblames
  refine ⟨hblames, ?_, ?_⟩
  · rintro rule rfl
    cases hblames
  · rintro rule fault rfl
    cases hblames

/-- A rule that is only the reference to another one. -/
def relayRule (name : String) (target : Reference) : Rule := ⟨name, true, .sequence [.token "and", .reference target]⟩

/-- What can be asked for, of which "go" leads to a place. -/
def errands : Grammar :=
  grammarWith "errands"
    [⟨relayRule "start" ⟨"go", none⟩, 0, true⟩, ⟨relayRule "go" ⟨"there", some "places"⟩, 1, true⟩] 2

/-- The places, of which one leads back. -/
def places : Grammar := grammarWith "places" [⟨relayRule "there" ⟨"go", some "errands"⟩, 0, true⟩] 1

/-- Two grammars with a circle through both of them. -/
def town : Workspace := ⟨default, #[places, errands], [("errands", 1), ("places", 0)]⟩

theorem town_reachable : town.Reachable := by
  have hplaces : (empty default).create "places" none none =
      .ok (0, ⟨default, #[grammarWith "places" [] 0], [("places", 0)]⟩) := rfl
  have herrands : (⟨default, #[grammarWith "places" [] 0], [("places", 0)]⟩ : Workspace).create "errands" none none =
      .ok (1, ⟨default, #[grammarWith "places" [] 0, grammarWith "errands" [] 0],
        [("errands", 1), ("places", 0)]⟩) := by
    cbv
  have hboth := (Reachable.empty.create hplaces).create herrands
  have hthere := (hboth.perform 0 (.addRule (relayRule "there" ⟨"go", some "errands"⟩))).perform 0 .commit
  exact ((hthere.perform 1 (.addRule (relayRule "start" ⟨"go", none⟩))).perform 1
    (.addRule (relayRule "go" ⟨"there", some "places"⟩))).perform 1 .commit

/-- The rule that is compiled leads into the circle and is not on it. -/
theorem town_compile_blames :
    town.Reachable ∧ errands ∈ town.grammars ∧ (errands.committed.rule? "start").isSome = true ∧
      town.compile errands "start" = .error (.cyclicReference ["go", "places.there", "go"]) ∧
      Blames (town.lookup errands) (town.environment errands).displayName ⟨"errands", "start"⟩
        (.cyclicReference ["go", "places.there", "go"]) := by
  have hmem : errands ∈ town.grammars := by simp [town]
  have hname : (errands.committed.rule? "start").isSome = true := by cbv
  have herror : town.compile errands "start" = .error (.cyclicReference ["go", "places.there", "go"]) := by cbv
  exact ⟨town_reachable, hmem, hname, herror, (compile_blames town_reachable hmem hname herror).1⟩

end Workspace

end SpeechGrammar
