import SpeechGrammar.Proofs.CacheRoundTrip
import SpeechGrammar.Proofs.Compilability

/-!
# What the cache reader lets through

The bytes of a cached grammar may come from anywhere. What the reader accepts is nevertheless a state that no operation
on grammars has to fear (`Cache.Trusted`), with every rule of the payload in it, and what it refuses is not one, or has
a header that does not fit (**`Cache.decode_trusted`**). In particular no body of a rule has a fault, so the rules of
the state never fail to compile because of one (`Environment.compile_ne_invalidRule`), and each token of their graphs
has a word (`Environment.worded_of_compile`).
-/

namespace SpeechGrammar

/-! ## Tokens have words -/

/-- If it is a token, it takes a word. -/
def Node.Worded (node : Node) : Prop := ∀ text words, node.kind = .token text words → words ≠ []

theorem Node.worded_of_not_token {node : Node} (h : node.kind.isToken = false) : node.Worded := by
  intro text words hkind
  rw [hkind] at h
  cases h

namespace Pattern

mutual

/-- Every token of the pattern has a word. -/
def Worded : Pattern → Prop
  | .token text => Text.words text ≠ []
  | .tag _ => True
  | .rule _ body => Worded body
  | .sequence items => WordedAll items
  | .alternatives branches => WordedAll branches
  | .count body _ _ => Worded body

/-- The tokens of the patterns have words. -/
def WordedAll : List Pattern → Prop
  | [] => True
  | p :: ps => Worded p ∧ WordedAll ps

end

theorem worded_layoutCopies {body : Nat → List Nat → Bool → List Node} {size min stop : Nat} {unbounded : Bool}
    (h : ∀ base out loopEntry, ∀ node ∈ body base out loopEntry, node.Worded) :
    ∀ left done base, ∀ node ∈ layoutCopies body size min stop unbounded left done base, node.Worded
  | 0, _, _ => List.forall_mem_nil _
  | 1, _, _ => h _ _ _
  | left + 2, _, _ => List.forall_mem_append.mpr ⟨h _ _ _, worded_layoutCopies h (left + 1) _ _⟩

mutual

/-- The tokens of a layout are those of its pattern. -/
theorem worded_layout : ∀ {p : Pattern}, p.Worded → ∀ base out loopEntry, ∀ node ∈ p.layout base out loopEntry,
    node.Worded
  | .token text, h, _, _, _ => by
    refine List.forall_mem_singleton.mpr fun text' words hkind => ?_
    cases hkind
    exact fun hnil => h (List.map_eq_nil_iff.mp hnil)
  | .tag _, _, _, _, _ => List.forall_mem_singleton.mpr (Node.worded_of_not_token rfl)
  | .rule _ body, h, _, _, _ => List.forall_mem_cons.mpr ⟨Node.worded_of_not_token rfl,
      List.forall_mem_cons.mpr ⟨Node.worded_of_not_token rfl, worded_layout (p := body) h _ _ _⟩⟩
  | .sequence _, h, _, _, _ => List.forall_mem_cons.mpr ⟨Node.worded_of_not_token rfl,
      List.forall_mem_cons.mpr ⟨Node.worded_of_not_token rfl, worded_layoutItems h _ _⟩⟩
  | .alternatives _, h, _, _, _ => List.forall_mem_cons.mpr ⟨Node.worded_of_not_token rfl,
      List.forall_mem_cons.mpr ⟨Node.worded_of_not_token rfl, worded_layoutBranches h _ _⟩⟩
  | .count body _ _, h, _, _, _ => List.forall_mem_cons.mpr ⟨Node.worded_of_not_token rfl,
      List.forall_mem_cons.mpr ⟨Node.worded_of_not_token rfl,
        worded_layoutCopies (fun _ _ _ => worded_layout (p := body) h _ _ _) _ _ _⟩⟩

theorem worded_layoutItems : ∀ {ps : List Pattern}, WordedAll ps → ∀ base stop, ∀ node ∈ layoutItems ps base stop,
    node.Worded
  | [], _, _, _ => List.forall_mem_nil _
  | _ :: _, h, _, _ => List.forall_mem_append.mpr ⟨worded_layout h.1 _ _ _, worded_layoutItems h.2 _ _⟩

theorem worded_layoutBranches : ∀ {ps : List Pattern}, WordedAll ps → ∀ base stop,
    ∀ node ∈ layoutBranches ps base stop, node.Worded
  | [], _, _, _ => List.forall_mem_nil _
  | _ :: _, h, _, _ => List.forall_mem_append.mpr ⟨worded_layout h.1 _ _ _, worded_layoutBranches h.2 _ _⟩

end

end Pattern

namespace Environment

/-! ## Components without fault -/

section

variable {visit : Reference → Except GrammarError Pattern} {owner : String}

mutual

/-- The tokens of a component without fault have words, and so have those of its pattern. -/
theorem worded_of_patternOf (hv : ∀ r p, visit r = .ok p → p.Worded) : ∀ {c : Component} {p : Pattern},
    c.fault? = none → patternOf visit owner c = .ok p → p.Worded
  | .token text, _, hc, h => by
    cases h
    intro hnil
    rw [Component.fault?, hnil] at hc
    cases hc
  | .tag _, _, _, h => by cases h; trivial
  | .reference r, p, _, h => hv r p h
  | .sequence _, _, hc, h => by
    obtain ⟨ps, hps, rfl⟩ := ok_of_map_eq_ok h
    exact worded_of_patternsOf hv hc hps
  | .alternatives _ _, _, hc, h => by
    rw [Component.fault?, Option.or_eq_none_iff] at hc
    obtain ⟨ps, hps, rfl⟩ := ok_of_map_eq_ok h
    exact worded_of_patternsOf hv hc.2 hps
  | .count _ _ _ _, _, hc, h => by
    simp only [Component.fault?, Option.or_eq_none_iff] at hc
    obtain ⟨-, ⟨-, rfl⟩ | ⟨q, hq, rfl⟩⟩ := patternOf_count h
    · exact (trivial : Pattern.nothing.Worded)
    · have hbody : q.Worded := worded_of_patternOf hv hc.2.2 hq
      exact hbody

theorem worded_of_patternsOf (hv : ∀ r p, visit r = .ok p → p.Worded) : ∀ {cs : List Component} {ps : List Pattern},
    Component.faultAmong? cs = none → patternsOf visit owner cs = .ok ps → Pattern.WordedAll ps
  | [], _, _, h => by cases h; trivial
  | _ :: _, _, hcs, h => by
    rw [Component.faultAmong?, Option.or_eq_none_iff] at hcs
    obtain ⟨q, qs, hq, hqs, rfl⟩ := patternsOf_cons h
    exact ⟨worded_of_patternOf hv hcs.1 hq, worded_of_patternsOf hv hcs.2 hqs⟩

end

end

/-! ## Rules without fault -/

/-- No body of a rule of the environment has a fault. -/
def Faultless (env : Environment) : Prop := ∀ s ∈ env.snapshots, ∀ e ∈ s.entries, e.rule.body.fault? = none

section

variable {env : Environment} {path : List RuleId} {source : RuleId} {rule : Rule}

/-- The rule that a reference leads to has no fault either. -/
theorem Faultless.of_resolve (h : env.Faultless) {r : Reference} {target : RuleId}
    (hr : env.resolve source r = .ok (target, rule)) : rule.body.fault? = none := by
  obtain ⟨-, hrule, -⟩ := resolve_eq_ok_iff.mp hr
  obtain ⟨s, hs, he⟩ := Option.bind_eq_some_iff.mp hrule
  obtain ⟨e, hfind, rfl⟩ := Option.map_eq_some_iff.mp he
  exact h s (List.mem_of_find?_eq_some hs) e (Snapshot.mem_of_find? hfind).1

theorem resolve_ne_invalidRule {r : Reference} {name : String} {fault : RuleFault} :
    env.resolve source r ≠ .error (.invalidRule name fault) := by
  intro h
  simp only [resolve] at h
  split at h
  · cases h
  · split at h
    · cases h
    · split at h <;> cases h

/-- A body without fault is not what keeps its rule from being built. -/
theorem ruleBody_ne_invalidRule (h : env.Faultless) {name : String} {fault : RuleFault}
    (hrule : rule.body.fault? = none) : env.ruleBody path source rule ≠ .error (.invalidRule name fault) := by
  induction path, source, rule using ruleBody.induct env with
  | case1 path source rule ih =>
    intro herror
    rw [ruleBody_eq] at herror
    obtain ⟨r, -, hr⟩ := error_of_patternOf hrule herror
    split at hr
    · rename_i hres
      cases hr
      exact resolve_ne_invalidRule hres
    · rename_i target q hres
      split at hr
      · cases hr
      · rename_i hnew
        exact ih r target q hres hnew (h.of_resolve hres) (error_of_map_eq_error hr)

/-- What is built of a body without fault has words at its tokens. -/
theorem worded_of_ruleBody (h : env.Faultless) {p : Pattern} (hrule : rule.body.fault? = none)
    (hp : env.ruleBody path source rule = .ok p) : p.Worded := by
  induction path, source, rule using ruleBody.induct env generalizing p with
  | case1 path source rule ih =>
    rw [ruleBody_eq] at hp
    refine worded_of_patternOf (fun r q hq => ?_) hrule hp
    split at hq
    · cases hq
    · rename_i target q' hres
      split at hq
      · cases hq
      · rename_i hnew
        obtain ⟨body, hbody, rfl⟩ := ok_of_map_eq_ok hq
        have hworded : body.Worded := ih r target q' hres hnew (h.of_resolve hres) hbody
        exact hworded

variable {name : String}

/-- The rule of a faultless environment has no fault. -/
theorem Faultless.of_start (h : env.Faultless) (hr : env.start.rule? name = some rule) : rule.body.fault? = none := by
  obtain ⟨e, hfind, rfl⟩ := Option.map_eq_some_iff.mp hr
  exact h env.start List.mem_cons_self e (Snapshot.mem_of_find? hfind).1

/-- **A rule of a faultless environment is never invalid.** -/
theorem compile_ne_invalidRule (h : env.Faultless) {owner : String} {fault : RuleFault} :
    env.compile name ≠ .error (.invalidRule owner fault) := by
  intro herror
  have herror := error_of_map_eq_error herror
  unfold pattern at herror
  split at herror
  · cases herror
  · rename_i rule hr
    exact ruleBody_ne_invalidRule h (h.of_start hr) herror

/-- **The tokens of its graph have words.** -/
theorem worded_of_compile (h : env.Faultless) {g : Graph} (hg : env.compile name = .ok g) :
    ∀ node ∈ g.nodes, node.Worded := by
  obtain ⟨body, hbody, rfl⟩ := ok_of_map_eq_ok hg
  unfold pattern at hbody
  split at hbody
  · cases hbody
  · rename_i rule hr
    have hworded : body.Worded := worded_of_ruleBody h (h.of_start hr) hbody
    intro node hnode
    rw [ruleGraph, List.mem_toArray, Pattern.layoutRule_eq] at hnode
    exact List.forall_mem_cons.mpr ⟨Node.worded_of_not_token rfl, List.forall_mem_cons.mpr
      ⟨Node.worded_of_not_token rfl, Pattern.worded_layout hworded 2 [1] false⟩⟩ node hnode

end

end Environment

/-! ## Restored states -/

namespace Cache

/-- What operations rely on in a grammar with the rules, the explicit root and the next id. -/
structure Trusted (name : String) (rules : List Entry) (root : Option String) (nextId : UInt64) : Prop where
  named : name ≠ ""
  rulesNamed : ∀ e ∈ rules, e.rule.name ≠ ""
  names : (rules.map Entry.name).Nodup
  ids : (rules.map Entry.id).Nodup
  below : ∀ e ∈ rules, e.id < nextId
  activatable : ∀ e ∈ rules, e.activatable = true → e.rule.isPublic = true
  root : ∀ rule, root = some rule → ∃ e ∈ rules, e.name = rule ∧ e.rule.isPublic = true
  bodies : ∀ e ∈ rules, e.rule.body.fault? = none

variable {s : Snapshot} {p : Payload} {bs payload : List UInt8}

theorem Storable.trusted (h : Storable s) : Trusted s.name s.entries s.explicitRoot s.nextId where
  named := h.named
  rulesNamed := h.rulesNamed
  names := h.names
  ids := h.toConsistent.logged.ids
  below := h.below
  activatable := h.activatable
  root := h.root
  bodies := h.bodies

/-- A payload is refused only if its content cannot be trusted or the number of its rules is wrong. -/
theorem Trusted.fault?_eq_none (h : Trusted p.name p.rules p.root p.nextId) (hcount : p.ruleCount = p.rules.length) :
    p.fault? = none :=
  Payload.fault?_eq_none_iff.mpr ⟨hcount, h.named,
    fun e he => ⟨h.rulesNamed e he, h.below e he, h.activatable e he⟩, ⟨h.names, h.ids⟩, h.root, h.bodies⟩

/-- **The cache reader accepts the states that can be trusted, and no others.** A state that it returns can be trusted,
each rule is found under its name, and the rules are those of the payload, none of them lost. A rule of the state
is never invalid when it is compiled next to other grammars without faults, and each token of its graph has a word.
Conversely, the bytes are accepted if the header and the checksum fit, the payload has as many rules as it says, and its
content can be trusted. -/
theorem decode_trusted (bs : List UInt8) :
    (∀ s, decode bs = .ok s →
      Trusted s.name s.entries s.explicitRoot s.nextId ∧
      (∀ e ∈ s.entries, s.find? e.name = some e) ∧
      (∃ payload p, payloadBytes bs = .ok payload ∧ decodePayload payload = .ok p ∧ s.entries.Perm p.rules ∧
        s.entries.length = p.rules.length) ∧
      ∀ others : List Snapshot, (∀ t ∈ others, ∀ e ∈ t.entries, e.rule.body.fault? = none) →
        ∀ name, (∀ owner fault, Environment.compile ⟨s, others⟩ name ≠ .error (.invalidRule owner fault)) ∧
          ∀ g, Environment.compile ⟨s, others⟩ name = .ok g → ∀ node ∈ g.nodes, ∀ text words,
            node.kind = .token text words → words ≠ []) ∧
    ∀ payload p, payloadBytes bs = .ok payload → checksumFits bs payload = true → decodePayload payload = .ok p →
      p.ruleCount = p.rules.length → Trusted p.name p.rules p.root p.nextId →
      ∃ s, decode bs = .ok s ∧ s.entries.Perm p.rules := by
  constructor
  · intro s hs
    have hstorable := storable_of_decode hs
    obtain ⟨payload, p, hpayload, -, hp, hsnapshot⟩ := decode_eq_ok_iff.mp hs
    obtain ⟨-, rfl⟩ := snapshot_eq_ok_iff.mp hsnapshot
    have hperm : p.toSnapshot.entries.Perm p.rules := Payload.placeAll_perm
    refine ⟨hstorable.trusted, fun e he => hstorable.toConsistent.find?_name he,
      ⟨payload, p, hpayload, hp, hperm, hperm.length_eq⟩, fun others hothers name => ?_⟩
    have hfaultless : Environment.Faultless ⟨p.toSnapshot, others⟩ :=
      List.forall_mem_cons.mpr ⟨hstorable.bodies, hothers⟩
    exact ⟨fun _ _ => Environment.compile_ne_invalidRule hfaultless,
      fun g hg => Environment.worded_of_compile hfaultless hg⟩
  · intro payload p hpayload hfits hp hcount htrusted
    have hsnapshot := snapshot_eq_ok_iff.mpr ⟨htrusted.fault?_eq_none hcount, rfl⟩
    exact ⟨p.toSnapshot, decode_eq_ok_iff.mpr ⟨payload, p, hpayload, hfits, hp, hsnapshot⟩, Payload.placeAll_perm⟩

/-- A state with two rules, of which the later one comes first in the payload. -/
def lightPayload : Payload :=
  ⟨"light", none, 1, 2, none,
    [⟨⟨"off", false, .token "off"⟩, 1, false⟩,
     ⟨⟨"set", true, .alternatives [.token "on", .reference ⟨"off", none⟩] none⟩, 0, true⟩], some "set", 2⟩

theorem light_trusted : Trusted lightPayload.name lightPayload.rules lightPayload.root lightPayload.nextId where
  named := by decide
  rulesNamed := by decide
  names := by decide
  ids := by decide
  below := by decide
  activatable := by decide
  root := by
    rintro rule ⟨⟩
    exact ⟨_, List.mem_cons_of_mem _ List.mem_cons_self, rfl, rfl⟩
  bodies := by decide +kernel

theorem light_decode_trusted :
    ∃ s, decode (frame (Write.payload lightPayload)) = .ok s ∧ s.entries.Perm lightPayload.rules ∧
      Trusted s.name s.entries s.explicitRoot s.nextId ∧
      ∀ owner fault, Environment.compile ⟨s, []⟩ "set" ≠ .error (.invalidRule owner fault) := by
  have hpayload : payloadBytes (frame (Write.payload lightPayload)) = .ok (Write.payload lightPayload) :=
    payloadBytes_frame (by decide +kernel)
  have hp : decodePayload (Write.payload lightPayload) = .ok lightPayload := by
    have hread := reads_payload light_trusted.bodies rfl nofun (by decide +kernel) []
    rw [List.append_nil] at hread
    rw [decodePayload, hread]
  obtain ⟨haccepted, hrefused⟩ := decode_trusted (frame (Write.payload lightPayload))
  obtain ⟨s, hs, hperm⟩ := hrefused _ _ hpayload (checksumFits_frame _) hp rfl light_trusted
  obtain ⟨htrusted, -, -, hcompile⟩ := haccepted s hs
  exact ⟨s, hs, hperm, htrusted, (hcompile [] (List.forall_mem_nil _) "set").1⟩

/-! ## Names of rules -/

/-- What keeps a rule with a name and a faultless body from being added is a character of the name. -/
theorem ruleFault?_eq_none_iff_of_ne_empty {rule : Rule} (hname : rule.name ≠ "") (hbody : rule.body.fault? = none) :
    Grammar.ruleFault? rule = none ↔ ∀ c ∈ rule.name.toList, Rule.barsName c = false := by
  have hne : rule.name.isEmpty = false := by rwa [← Bool.not_eq_true, String.isEmpty_iff]
  rw [Grammar.ruleFault?_eq_none_iff, and_iff_left hbody, Rule.isName, hne, Bool.not_false, Bool.true_and,
    Bool.not_eq_true', List.any_eq_false]
  simp only [Bool.not_eq_true]

/-- **The reader checks the bodies of rules, and of their names only that they are not empty.** All rules of an accepted
state could be added one by one exactly if no name holds a character that is barred. The state is also that of the
grammar which a workspace makes of the bytes, and it makes one if the name of the grammar is free. -/
theorem decode_admits_iff (h : decode bs = .ok s) :
    (∀ e ∈ s.entries, e.rule.name ≠ "" ∧ e.rule.body.fault? = none) ∧
      ((∀ e ∈ s.entries, Grammar.ruleFault? e.rule = none) ↔
        ∀ e ∈ s.entries, ∀ c ∈ e.rule.name.toList, Rule.barsName c = false) ∧
      ∀ w : Workspace,
        ((∃ handle w', w.restore bs = .ok (handle, w')) ↔ w.handle? s.name = none) ∧
        ∀ handle w', w.restore bs = .ok (handle, w') → ∃ g, w'.grammar? handle = some g ∧ g.committed = s := by
  have hs := storable_of_decode h
  refine ⟨fun e he => ⟨hs.rulesNamed e he, hs.bodies e he⟩, ?_, fun w => ⟨⟨?_, fun hfree => ?_⟩, ?_⟩⟩
  · exact forall₂_congr fun e he => ruleFault?_eq_none_iff_of_ne_empty (hs.rulesNamed e he) (hs.bodies e he)
  · rintro ⟨handle, w', hrestore⟩
    obtain ⟨t, ht, hregister⟩ := Workspace.restore_eq_ok_iff.mp hrestore
    obtain rfl : s = t := Except.ok.inj (h.symm.trans ht)
    exact (Workspace.register_eq_ok_iff.mp hregister).1
  · exact ⟨_, _, Workspace.restore_eq_ok_iff.mpr ⟨s, h, Workspace.register_eq_ok_iff.mpr ⟨hfree, rfl, rfl⟩⟩⟩
  · intro handle w' hrestore
    obtain ⟨t, ht, hregister⟩ := Workspace.restore_eq_ok_iff.mp hrestore
    obtain rfl : s = t := Except.ok.inj (h.symm.trans ht)
    obtain ⟨-, rfl, rfl⟩ := Workspace.register_eq_ok_iff.mp hregister
    exact ⟨_, Workspace.grammar?_keep_new w _, rfl⟩

theorem lone_decode_admits_iff :
    decode (encode (lone ⟨"on", true, .token "on"⟩ 0 1 1) none) = .ok (lone ⟨"on", true, .token "on"⟩ 0 1 1) ∧
      ∀ e ∈ (lone ⟨"on", true, .token "on"⟩ 0 1 1).entries, Grammar.ruleFault? e.rule = none := by
  have hbytes : decode (encode (lone ⟨"on", true, .token "on"⟩ 0 1 1) none) = .ok (lone ⟨"on", true, .token "on"⟩ 0 1 1) :=
    decode_lone (by decide) rfl (by decide) (by decide +kernel)
  have hname : ∀ c ∈ "on".toList, Rule.barsName c = false :=
    List.forall_mem_cons.mpr ⟨by decide, List.forall_mem_singleton.mpr (by decide)⟩
  exact ⟨hbytes, (decode_admits_iff hbytes).2.1.mpr (List.forall_mem_singleton.mpr hname)⟩

/-- **A rule comes through the reader that no grammar takes**: its name has a dot. -/
theorem lone_dotted_not_admitted :
    decode (encode (lone ⟨"a.b", true, .token "on"⟩ 0 1 1) none) = .ok (lone ⟨"a.b", true, .token "on"⟩ 0 1 1) ∧
      ∀ g : Grammar, g.addRule ⟨"a.b", true, .token "on"⟩ = .error (.invalidRule "a.b" .name) :=
  ⟨decode_lone (by decide) rfl (by decide) (by decide +kernel), fun _ => rfl⟩

end Cache

end SpeechGrammar
