import SpeechGrammar.Proofs.Recognition
import SpeechGrammar.Proofs.Reloading
import SpeechGrammar.Proofs.RereadLanguage

/-!
# A reloaded grammar has the same language

The text of a grammar that refers to its own rules only can be loaded into an empty workspace, if the names in it can be
written (`Snapshot.Writable`). The rules of the loaded grammar have other bodies, those that are read where the original
ones are written. Each of them can be compiled if and only if the original one can, and then the same words are
recognised (**`Grammar.reloaded_language`**).

Two environments are compared, of which one has the rules of the other as they are read back (`Environment.Rereads`).
Words that fit a component in one of them fit it in the other (**`Environment.Rereads.accepts_iff`**), by induction on
how they fit, where a reference is followed by `accepts_reread_iff`. The references of the rules are the same, so the
same rules are grounded (**`Environment.Rereads.exists_compile_iff`**).
-/

namespace SpeechGrammar

/-! ## Two environments -/

namespace Environment

/-- The rules are there by the same names, each with what is read where its body is written. -/
structure Rereads (env env' : Environment) : Prop where
  start : env'.start.name = env.start.name
  rules : ∀ id, ruleOf? env'.grammar? id = (ruleOf? env.grammar? id).map Rule.reread
  bodies : ∀ id rule, ruleOf? env.grammar? id = some rule → rule.body.fault? = none

variable {env env' : Environment} {wildcards : Bool}

theorem leadsTo_iff {owner target : String} {r : Reference} {rule : Rule} :
    env.LeadsTo owner r target rule ↔
      target = r.grammar.getD owner ∧ ruleOf? env.grammar? ⟨target, r.rule⟩ = some rule := by
  rw [LeadsTo, ruleOf?, Option.bind_eq_some_iff]

namespace Rereads

section

variable (h : env.Rereads env')

include h

/-- The bodies that are read have no fault either. -/
theorem bodies' (id : RuleId) (rule : Rule) (hrule : ruleOf? env'.grammar? id = some rule) :
    rule.body.fault? = none := by
  rw [h.rules] at hrule
  obtain ⟨original, horiginal, rfl⟩ := Option.map_eq_some_iff.mp hrule
  exact Component.fault?_reread (h.bodies id original horiginal)

theorem leadsTo {owner target : String} {r : Reference} {rule : Rule} (hr : env.LeadsTo owner r target rule) :
    env'.LeadsTo owner r target rule.reread ∧ rule.body.fault? = none := by
  obtain ⟨htarget, hrule⟩ := leadsTo_iff.mp hr
  refine ⟨leadsTo_iff.mpr ⟨htarget, ?_⟩, h.bodies _ _ hrule⟩
  rw [h.rules, hrule]
  rfl

theorem of_leadsTo {owner target : String} {r : Reference} {rule : Rule} (hr : env'.LeadsTo owner r target rule) :
    ∃ original, env.LeadsTo owner r target original ∧ rule = original.reread ∧ original.body.fault? = none := by
  obtain ⟨htarget, hrule⟩ := leadsTo_iff.mp hr
  rw [h.rules] at hrule
  obtain ⟨original, horiginal, rfl⟩ := Option.map_eq_some_iff.mp hrule
  exact ⟨original, leadsTo_iff.mpr ⟨htarget, horiginal⟩, rfl, h.bodies _ _ horiginal⟩

end

mutual

theorem accepts (h : env.Rereads env') : ∀ {owner : String} {c : Component} {spoken : List String},
    env.Accepts wildcards owner c spoken → env'.Accepts wildcards owner c spoken
  | _, _, _, .token hfits => .token hfits
  | _, _, _, .tag => .tag
  | _, _, _, .reference hr hbody => by
    obtain ⟨hr', hfault⟩ := h.leadsTo hr
    have hsame := h.accepts hbody
    exact .reference hr' ((accepts_reread_iff hfault).mpr hsame)
  | _, _, _, .sequence hitems => .sequence (h.acceptsAll hitems)
  | _, _, _, .alternatives hmem hbranch => .alternatives hmem (h.accepts hbranch)
  | _, _, _, .count hmin hmax hall => .count hmin hmax (h.acceptsAll hall)

theorem acceptsAll (h : env.Rereads env') : ∀ {owner : String} {cs : List Component} {spoken : List String},
    env.AcceptsAll wildcards owner cs spoken → env'.AcceptsAll wildcards owner cs spoken
  | _, _, _, .nil => .nil
  | _, _, _, .cons hc hcs => .cons (h.accepts hc) (h.acceptsAll hcs)

end

mutual

theorem of_accepts (h : env.Rereads env') : ∀ {owner : String} {c : Component} {spoken : List String},
    env'.Accepts wildcards owner c spoken → env.Accepts wildcards owner c spoken
  | _, _, _, .token hfits => .token hfits
  | _, _, _, .tag => .tag
  | _, _, _, .reference hr hbody => by
    obtain ⟨original, hr', heq, hfault⟩ := h.of_leadsTo hr
    have hsame := h.of_accepts hbody
    rw [heq] at hsame
    exact .reference hr' ((accepts_reread_iff hfault).mp hsame)
  | _, _, _, .sequence hitems => .sequence (h.of_acceptsAll hitems)
  | _, _, _, .alternatives hmem hbranch => .alternatives hmem (h.of_accepts hbranch)
  | _, _, _, .count hmin hmax hall => .count hmin hmax (h.of_acceptsAll hall)

theorem of_acceptsAll (h : env.Rereads env') : ∀ {owner : String} {cs : List Component} {spoken : List String},
    env'.AcceptsAll wildcards owner cs spoken → env.AcceptsAll wildcards owner cs spoken
  | _, _, _, .nil => .nil
  | _, _, _, .cons hc hcs => .cons (h.of_accepts hc) (h.of_acceptsAll hcs)

end

section

variable (h : env.Rereads env')

include h

/-- **A component fits the same words in both environments.** -/
theorem accepts_iff {owner : String} {c : Component} {spoken : List String} :
    env'.Accepts wildcards owner c spoken ↔ env.Accepts wildcards owner c spoken := ⟨h.of_accepts, h.accepts⟩

/-! ### Compiling -/

theorem mentions_iff {id : RuleId} {r : Reference} : Mentions env'.grammar? id r ↔ Mentions env.grammar? id r := by
  simp only [Mentions, h.rules]
  constructor
  · rintro ⟨rule, hrule, hr⟩
    obtain ⟨original, horiginal, rfl⟩ := Option.map_eq_some_iff.mp hrule
    exact ⟨original, horiginal, (Component.mem_liveReferences_reread (h.bodies id original horiginal)).mp hr⟩
  · rintro ⟨rule, hrule, hr⟩
    exact ⟨rule.reread, by rw [hrule]; rfl,
      (Component.mem_liveReferences_reread (h.bodies id rule hrule)).mpr hr⟩

theorem resolves_iff {source : RuleId} {r : Reference} :
    Resolves env'.grammar? source r ↔ Resolves env.grammar? source r := by
  simp only [Resolves, h.rules]
  constructor
  · rintro ⟨rule, hrule, hpublic⟩
    obtain ⟨original, horiginal, rfl⟩ := Option.map_eq_some_iff.mp hrule
    exact ⟨original, horiginal, hpublic⟩
  · rintro ⟨rule, hrule, hpublic⟩
    exact ⟨rule.reread, by rw [hrule]; rfl, hpublic⟩

theorem grounded_iff {id : RuleId} : Grounded env'.grammar? id ↔ Grounded env.grammar? id := by
  have hrefers : Refers env'.grammar? = Refers env.grammar? := by
    funext source target
    simp only [Refers, h.mentions_iff]
  simp only [Grounded, hrefers, h.mentions_iff, h.resolves_iff]

/-- **The same rules can be compiled.** -/
theorem exists_compile_iff (name : String) :
    (∃ g, env'.compile name = .ok g) ↔ ∃ g, env.compile name = .ok g := by
  have hpattern (e : Environment) : (∃ g, e.compile name = .ok g) ↔ ∃ p, e.pattern name = .ok p := by
    constructor
    · rintro ⟨g, hg⟩
      obtain ⟨p, hp, -⟩ := ok_of_map_eq_ok hg
      exact ⟨p, hp⟩
    · rintro ⟨p, hp⟩
      exact ⟨_, by rw [compile, hp]; rfl⟩
  rw [hpattern, hpattern, exists_pattern_iff h.bodies', exists_pattern_iff h.bodies, h.start, h.grounded_iff,
    rule?_start, rule?_start, h.start, h.rules, Option.isSome_map]

/-- **The same words are recognised** by searches that meet none of their limits. -/
theorem parse_isSome_iff {name : String} {g g' : Graph} {spoken : List String} {o o' : SearchOptions}
    (hg : env.compile name = .ok g) (hg' : env'.compile name = .ok g') (hwildcards : o'.wildcards = o.wildcards)
    (hlimits : g.StaysWithinLimits spoken o) (hlimits' : g'.StaysWithinLimits spoken o') :
    (g'.parse spoken o').isSome = true ↔ (g.parse spoken o).isSome = true := by
  rw [parse_isSome_iff_accepts hg hlimits, parse_isSome_iff_accepts hg' hlimits', hwildcards, h.start, rule?_start,
    rule?_start, h.start, h.rules]
  constructor
  · rintro ⟨rule, hrule, haccepts⟩
    obtain ⟨original, horiginal, rfl⟩ := Option.map_eq_some_iff.mp hrule
    exact ⟨original, horiginal, (accepts_reread_iff (h.bodies _ _ horiginal)).mp (h.accepts_iff.mp haccepts)⟩
  · rintro ⟨rule, hrule, haccepts⟩
    exact ⟨rule.reread, by rw [hrule]; rfl,
      (accepts_reread_iff (h.bodies _ _ hrule)).mpr (h.accepts_iff.mpr haccepts)⟩

end

end Rereads

end Environment

/-! ## What can be written -/

/-- Zero with its sign bit set. -/
def Single.negativeZero : Single := ⟨0x80000000⟩

/-- A finite number that is not negative has its sign bit set only if it is the negative zero. -/
theorem Single.signed_eq_false {x : Single} (hfinite : x.isFinite = true) (hnegative : x.isNegative = false)
    (hzero : x ≠ negativeZero) : x.signed = false := by
  by_contra hsigned
  rw [Bool.not_eq_false] at hsigned
  have hnan : x.isNaN = false := by
    simp only [isFinite, isNaN, decide_eq_true_eq, decide_eq_false_iff_not] at hfinite ⊢
    omega
  have hmagnitude : x.magnitude = 0 := by
    simpa [isNegative, hsigned, hnan] using hnegative
  refine hzero ?_
  simp only [signed, magnitude, decide_eq_true_eq] at hsigned hmagnitude
  have hlt := x.bits.toNat_lt
  have hbits : x.bits = 0x80000000 := UInt32.toNat_inj.mp (by show x.bits.toNat = 2 ^ 31; omega)
  cases x
  exact congrArg Single.mk hbits

namespace Component

mutual

/-- All weights of a component, from left to right. -/
def allWeights : Component → List Single
  | .token _ => []
  | .tag _ => []
  | .reference _ => []
  | .sequence items => allWeightsAmong items
  | .alternatives branches weights => weights.getD [] ++ allWeightsAmong branches
  | .count body _ _ _ => allWeights body

/-- All weights of a list of components, from left to right. -/
def allWeightsAmong : List Component → List Single
  | [] => []
  | c :: cs => allWeights c ++ allWeightsAmong cs

end

end Component

/-- The reference has no grammar, and the name of a rule that can be read. -/
structure Reference.Plain (r : Reference) : Prop where
  unqualified : r.grammar = none
  name : Jsgf.IsRuleName r.rule
  special : r.rule ≠ "NULL" ∧ r.rule ≠ "VOID"

theorem Reference.Plain.readable {r : Reference} (h : r.Plain) : r.Readable := by
  have hinner : r.inner = r.rule.toList := by rw [Reference.inner, h.unqualified]
  have hchars : ∀ c ∈ r.rule.toList, Jsgf.isReferenceChar c = true ∧ c ≠ '.' := by
    intro c hc
    have hname := h.name.2 c hc
    simp only [Jsgf.isRuleNameChar, Jsgf.isBare, Bool.and_eq_true, Bool.not_eq_true', bne_iff_ne, ne_eq] at hname
    obtain ⟨⟨hblank, hreserved⟩, hdot⟩ := hname
    have hopen : c ≠ '<' := by
      rintro rfl
      exact absurd hreserved (by decide)
    have hclose : c ≠ '>' := by
      rintro rfl
      exact absurd hreserved (by decide)
    exact ⟨by simp [Jsgf.isReferenceChar, hblank, hopen, hclose], hdot⟩
  have hempty : r.rule ≠ "" := fun hempty => h.name.1 (by rw [hempty]; rfl)
  have hnormal : r.Normal := {
    chars := fun c hc => (hchars c (hinner ▸ hc)).1
    rule := fun hdot => (hchars '.' hdot).2 rfl
    plain := fun _ => ⟨hempty, h.special⟩ }
  exact hnormal.readable hempty

namespace Component

mutual

/-- A component without fault is read as `reread` says, if its references are plain and no weight is a negative zero. -/
theorem readable_of_plain : ∀ {c : Component}, c.fault? = none → (∀ r ∈ c.references, r.Plain) →
    (∀ w ∈ c.allWeights, w ≠ .negativeZero) → c.Readable
  | .token _, _, _, _ => trivial
  | .tag _, _, _, _ => trivial
  | .reference r, _, href, _ => (href r (List.mem_singleton.mpr rfl)).readable
  | .sequence _, hfault, href, hws => readableAll_of_plain hfault href hws
  | .alternatives branches weights, hfault, href, hws => by
    rw [fault?, Option.or_eq_none_iff] at hfault
    rw [allWeights, List.forall_mem_append] at hws
    refine ⟨?_, readableAll_of_plain hfault.2 href hws.2⟩
    rintro ws rfl
    obtain ⟨hlength, hall⟩ := weights_of_weightsFault? hfault.1 ws rfl
    refine ⟨hlength, fun w hw => ?_⟩
    obtain ⟨hfinite, hnegative⟩ := hall w hw
    exact ⟨Single.signed_eq_false hfinite hnegative (hws.1 w hw), hfinite⟩
  | .count body _ _ _, hfault, href, hws => by
    simp only [fault?, Option.or_eq_none_iff] at hfault
    exact readable_of_plain (c := body) hfault.2.2 href hws

theorem readableAll_of_plain : ∀ {cs : List Component}, faultAmong? cs = none →
    (∀ r ∈ referencesAll cs, r.Plain) → (∀ w ∈ allWeightsAmong cs, w ≠ .negativeZero) → ReadableAll cs
  | [], _, _, _ => trivial
  | _ :: _, hfault, href, hws => by
    rw [faultAmong?, Option.or_eq_none_iff] at hfault
    rw [referencesAll, List.forall_mem_append] at href
    rw [allWeightsAmong, List.forall_mem_append] at hws
    exact ⟨readable_of_plain hfault.1 href.1 hws.1, readableAll_of_plain hfault.2 href.2 hws.2⟩

end

end Component

/-- The state has names and a locale that the reader of grammar texts takes, its references are plain, and no weight is
a negative zero. -/
structure Snapshot.Writable (s : Snapshot) : Prop where
  name : Jsgf.IsGrammarName s.name
  locale : Jsgf.IsLocale s.locale
  rules : ∀ e ∈ s.entries, Jsgf.IsRuleName e.rule.name
  references : ∀ e ∈ s.entries, ∀ r ∈ e.rule.body.references, r.Plain
  weights : ∀ e ∈ s.entries, ∀ w ∈ e.rule.body.allWeights, w ≠ .negativeZero

/-- A name that can be read is one that a rule may have. -/
theorem Jsgf.IsRuleName.isName {name : String} (h : IsRuleName name) : Rule.isName name = true := by
  rw [Rule.isName, Bool.and_eq_true, Bool.not_eq_true', Bool.not_eq_true', List.any_eq_false]
  refine ⟨?_, fun c hc hbars => ?_⟩
  · rw [← Bool.not_eq_true, String.isEmpty_iff]
    exact fun hempty => h.1 (by rw [hempty]; rfl)
  · have hname := h.2 c hc
    simp only [isRuleNameChar, isBare, Bool.and_eq_true, Bool.not_eq_true', bne_iff_ne, ne_eq] at hname
    obtain ⟨⟨hblank, hreserved⟩, hdot⟩ := hname
    rw [Rule.barsName, hblank, Bool.false_or, List.contains_iff_mem] at hbars
    simp only [List.mem_cons, List.not_mem_nil, or_false] at hbars
    rcases hbars with rfl | rfl | rfl | rfl | rfl
    · exact absurd hreserved (by decide)
    · exact absurd hreserved (by decide)
    · exact absurd hreserved (by decide)
    · exact absurd hreserved (by decide)
    · exact hdot rfl

namespace Snapshot

variable {s t : Snapshot} {rule : Rule} {rules : List Rule} {name : String}

theorem Writable.readable (h : s.Writable) (hbodies : ∀ e ∈ s.entries, e.rule.body.fault? = none) : s.Readable where
  name := h.name
  locale := h.locale
  rules := fun e he =>
    ⟨h.rules e he, Component.readable_of_plain (hbodies e he) (h.references e he) (h.weights e he)⟩

/-! ## Names of rules -/

/-- With distinct names, a rule is found by its name if and only if it is there. -/
theorem rule?_eq_some_iff (hnames : (s.entries.map Entry.name).Nodup) :
    s.rule? name = some rule ↔ rule ∈ s.entries.map Entry.rule ∧ rule.name = name := by
  rw [rule?, Option.map_eq_some_iff]
  constructor
  · rintro ⟨e, hfind, rfl⟩
    obtain ⟨he, rfl⟩ := mem_of_find? hfind
    exact ⟨List.mem_map_of_mem he, rfl⟩
  · rintro ⟨hmem, rfl⟩
    obtain ⟨e, he, rfl⟩ := List.mem_map.mp hmem
    cases hfind : s.find? e.rule.name with
    | none => exact absurd (List.mem_map_of_mem (f := Entry.name) he) (find?_eq_none_iff.mp hfind)
    | some f =>
      obtain ⟨hf, hname⟩ := mem_of_find? hfind
      exact ⟨f, rfl, congrArg Entry.rule (List.inj_on_of_nodup_map hnames hf he hname)⟩

/-- A change keeps the names of the rules distinct, also when the ids start again. -/
theorem names_apply {c : Change} {changed : Bool} (h : s.apply c = .ok (t, changed))
    (hs : (s.entries.map Entry.name).Nodup) : (t.entries.map Entry.name).Nodup := by
  obtain ⟨rule, rfl, hnew, rfl, -⟩ | ⟨old, rfl, rfl⟩ | ⟨names, enabled, rfl, -, rfl⟩ | ⟨rfl, rfl⟩ | ⟨root, rfl, -, rfl⟩ :=
    apply_cases h
  · exact (Cache.Payload.place_perm.map Entry.name).nodup_iff.mpr (List.nodup_cons.mpr ⟨hnew, hs⟩)
  · exact hs.sublist (List.filter_sublist.map Entry.name)
  · have hsame : (s.activate names enabled).entries.map Entry.name = s.entries.map Entry.name := by
      simp only [activate, List.map_map]
      refine List.map_congr_left fun e _ => ?_
      dsimp only [Function.comp_apply]
      split <;> rfl
    rwa [hsame]
  · exact hs
  · exact hs

/-- What every change keeps of the entries, several changes keep. -/
theorem entries_applyAll {P : List Entry → Prop} {cs : List Change}
    (hstep : ∀ (s t : Snapshot) (c : Change) (changed : Bool), s.apply c = .ok (t, changed) → P s.entries → P t.entries)
    (hs : P s.entries) : P (s.applyAll cs).snapshot.entries := by
  induction cs generalizing s with
  | nil => exact hs
  | cons c cs ih =>
    cases happly : s.apply c with
    | error fault =>
      simp only [applyAll, happly]
      exact ih hs
    | ok result =>
      simp only [applyAll, happly]
      exact ih (hstep s _ c _ happly hs)

/-- Rules that are added are all there, whatever their ids are. -/
theorem perm_foldl_insert (rules : List Rule) :
    ((rules.foldl insert s).entries.map Entry.rule).Perm (s.entries.map Entry.rule ++ rules) := by
  induction rules generalizing s with
  | nil => rw [List.foldl_nil, List.append_nil]
  | cons rule rules ih =>
    have hinsert : ((s.insert rule).entries.map Entry.rule).Perm (rule :: s.entries.map Entry.rule) :=
      Cache.Payload.place_perm.map Entry.rule
    exact ih.trans ((hinsert.append_right rules).trans List.perm_middle.symm)

end Snapshot

/-! ## Runs and workspaces -/

namespace Grammar

variable {g : Grammar}

theorem linked_perform (g : Grammar) (o : Operation) : (g.perform o).linked = g.linked := by
  cases o with
  | addRule rule =>
    rcases perform_addRule g rule with ⟨-, heq⟩ | heq
    · rw [heq]
      rfl
    · rw [heq]
  | _ => rfl

/-- What every change keeps of the entries, an operation keeps. -/
theorem entries_perform {P : List Entry → Prop}
    (hstep : ∀ (s t : Snapshot) (c : Change) (changed : Bool), s.apply c = .ok (t, changed) → P s.entries → P t.entries)
    (h : P g.committed.entries) (o : Operation) : P (g.perform o).committed.entries := by
  by_cases ho : o = .commit
  · subst ho
    show P (g.committed.publish _).entries
    unfold Snapshot.publish
    split
    · exact Snapshot.entries_applyAll hstep h
    · exact h
  · rwa [(perform_committed ho).1]

theorem names_perform (o : Operation) (h : (g.committed.entries.map Entry.name).Nodup) :
    ((g.perform o).committed.entries.map Entry.name).Nodup :=
  entries_perform (P := fun es => (es.map Entry.name).Nodup) (fun _ _ _ _ => Snapshot.names_apply) h o

/-- After a run the grammar is still sound and on its own, and its rules have distinct names. -/
theorem run_keeps (os : List Operation) (hg : g.Sound) (hnames : (g.committed.entries.map Entry.name).Nodup) :
    (g.run os).Sound ∧ ((g.run os).committed.entries.map Entry.name).Nodup ∧ (g.run os).linked = g.linked := by
  induction os generalizing g with
  | nil => exact ⟨hg, hnames, rfl⟩
  | cons o os ih =>
    obtain ⟨hsound, hdistinct, hlinked⟩ := ih (hg.perform o) (names_perform o hnames)
    exact ⟨hsound, hdistinct, hlinked.trans (linked_perform g o)⟩

end Grammar

namespace Workspace

variable {w' : Workspace} {h : Handle} {source : String} {doc : Jsgf.Document} {options : SearchOptions}

/-- In a workspace with one grammar only the name of this grammar leads anywhere. -/
theorem lookup_of_load (hload : (empty options).load source = .ok (h, w'))
    (hparse : Jsgf.Document.parse source = .ok doc) (name : String) :
    w'.lookup ((empty options).loaded doc) name =
      if name = doc.name then some ((empty options).loaded doc).committed else none := by
  obtain ⟨doc', g, hparse', -, hg, hregister⟩ := load_eq_ok_iff.mp hload
  obtain rfl : doc = doc' := Except.ok.inj (hparse.symm.trans hparse')
  obtain ⟨-, -, rfl⟩ := grammarOf_eq_ok.mp hg
  obtain ⟨-, rfl, rfl⟩ := register_eq_ok_iff.mp hregister
  have hname : ((empty options).loaded doc).name = doc.name := (name_loaded _ doc).1
  unfold lookup
  rw [hname]
  by_cases hsame : name = doc.name
  · rw [if_pos hsame, if_pos hsame]
  · rw [if_neg hsame, if_neg hsame]
    have hother : (name == doc.name) = false := beq_eq_false_iff_ne.mpr hsame
    simp only [handle?, List.lookup_cons, hother]
    exact ite_self none

end Workspace

namespace Grammar

open Workspace (loaded)

variable {g : Grammar} {options : SearchOptions}

/-- The document that is read where the grammar is written. -/
def document (g : Grammar) : Jsgf.Document :=
  ⟨g.committed.name, g.committed.locale, [], g.committed.entries.map fun e => e.rule.reread⟩

theorem names_document (g : Grammar) : g.document.rules.map Rule.name = g.committed.entries.map Entry.name := by
  rw [document, List.map_map]
  rfl

/-- A rule of the loaded grammar is the one of the same name as it is read back. -/
theorem rule?_loaded (hnames : (g.committed.entries.map Entry.name).Nodup) (name : String) :
    (((Workspace.empty options).loaded g.document).committed.rule? name) =
      (g.committed.rule? name).map Rule.reread := by
  have hperm : (((Workspace.empty options).loaded g.document).committed.entries.map Entry.rule).Perm
      g.document.rules := Snapshot.perm_foldl_insert g.document.rules
  have hdistinct : (((Workspace.empty options).loaded g.document).committed.entries.map Entry.name).Nodup := by
    have hsame := hperm.map Rule.name
    rw [List.map_map, names_document] at hsame
    exact hsame.nodup_iff.mpr hnames
  refine Option.ext fun rule => ?_
  rw [Snapshot.rule?_eq_some_iff hdistinct, hperm.mem_iff, Option.map_eq_some_iff]
  simp only [Snapshot.rule?_eq_some_iff hnames, document, List.mem_map]
  constructor
  · rintro ⟨⟨e, he, rfl⟩, hname⟩
    exact ⟨e.rule, ⟨⟨e, he, rfl⟩, hname⟩, rfl⟩
  · rintro ⟨_, ⟨⟨e, he, rfl⟩, hname⟩, rfl⟩
    exact ⟨⟨e, he, rfl⟩, hname⟩

/-- The environment of the loaded grammar has the rules of the grammar as they are read back. -/
theorem rereads_loaded {h : Handle} {w' : Workspace} (hg : g.Sound) (hlinked : g.linked = false)
    (hnames : (g.committed.entries.map Entry.name).Nodup)
    (hparse : Jsgf.Document.parse g.committed.jsgf = .ok g.document)
    (hload : (Workspace.empty options).load g.committed.jsgf = .ok (h, w')) (v : Workspace) :
    (v.environment g).Rereads (w'.environment ((Workspace.empty options).loaded g.document)) := by
  have hsound : w'.Sound := (Workspace.Reachable.load .empty hload).sound
  have hlookup : ∀ name, (v.environment g).grammar? name =
      if name = g.committed.name then some g.committed else none := by
    intro name
    have hname : (g.committed.name == name) = decide (name = g.committed.name) := by
      rw [Bool.eq_iff_iff, beq_iff_eq, decide_eq_true_iff, eq_comm]
    simp only [Environment.grammar?, Environment.snapshots, Workspace.environment, hlinked, List.find?_cons, hname]
    by_cases hsame : name = g.committed.name <;> simp [hsame]
  refine ⟨(Workspace.name_loaded (Workspace.empty options) g.document).1, fun id => ?_, fun id rule hrule => ?_⟩
  · rw [ruleOf?, ruleOf?, Workspace.grammar?_environment hsound, Workspace.lookup_of_load hload hparse, hlookup]
    by_cases hsame : id.grammar = g.committed.name
    · rw [if_pos hsame, if_pos (show id.grammar = g.document.name from hsame)]
      exact rule?_loaded hnames id.rule
    · rw [if_neg hsame, if_neg (show id.grammar ≠ g.document.name from hsame)]
      rfl
  · rw [ruleOf?, hlookup] at hrule
    obtain ⟨s, hs, hfound⟩ := Option.bind_eq_some_iff.mp hrule
    split at hs
    · cases hs
      obtain ⟨e, hfind, rfl⟩ := Option.map_eq_some_iff.mp hfound
      exact hg.bodies e (Snapshot.mem_of_find? hfind).1
    · cases hs

/-- **A reloaded grammar has the same language.** The text of a grammar on its own, in any state that a run comes to
from an empty grammar or from a restored one, is loaded into an empty workspace if the state can be written. Each rule
of the loaded grammar can be compiled if and only if the one of the same name can, and then searches that meet none of
their limits recognise the same spoken words. -/
theorem reloaded_language (fresh : SearchOptions) {s : Snapshot} {os : List Operation}
    (start : (∃ name locale, s = .empty name locale) ∨ ∃ bytes, Cache.decode bytes = .ok s)
    (hg : (ofSnapshot s options false).run os = g) (hwritable : g.committed.Writable) :
    ∃ h w' f, (Workspace.empty fresh).load g.committed.jsgf = .ok (h, w') ∧ w'.grammar? h = some f ∧
      f.name = g.name ∧ f.committed.locale = g.committed.locale ∧
      (f.committed.entries.map Entry.name).Perm (g.committed.entries.map Entry.name) ∧
      ∀ (v : Workspace) (name : String),
        ((∃ graph, w'.compile f name = .ok graph) ↔ ∃ graph, v.compile g name = .ok graph) ∧
        ∀ graph graph', v.compile g name = .ok graph → w'.compile f name = .ok graph' →
          ∀ (spoken : List String) (o o' : SearchOptions), o'.wildcards = o.wildcards →
            graph.StaysWithinLimits spoken o → graph'.StaysWithinLimits spoken o' →
            ((graph'.parse spoken o').isSome = true ↔ (graph.parse spoken o).isSome = true) := by
  have hstart : (ofSnapshot s options false).Sound ∧ (s.entries.map Entry.name).Nodup := by
    rcases start with ⟨name, locale, rfl⟩ | ⟨bytes, hbytes⟩
    · exact ⟨sound_empty name locale options false, List.nodup_nil⟩
    · exact ⟨sound_of_decode hbytes options false, (Cache.storable_of_decode hbytes).names⟩
  obtain ⟨hsound, hnames, hlinked⟩ := run_keeps os hstart.1 hstart.2
  rw [hg] at hsound hnames hlinked
  have hparse : Jsgf.Document.parse g.committed.jsgf = .ok g.document :=
    Snapshot.parse_jsgf (hwritable.readable hsound.bodies)
  have hfaults : ∀ rule ∈ g.document.rules, ruleFault? rule = none := List.forall_mem_map.mpr fun e he =>
    ruleFault?_eq_none_iff.mpr ⟨(hwritable.rules e he).isName, Component.fault?_reread (hsound.bodies e he)⟩
  have hdistinct : (g.document.rules.map Rule.name).Nodup := (names_document g).symm ▸ hnames
  obtain ⟨h, w', hload⟩ := (Workspace.exists_load_iff (w := .empty fresh)).mpr ⟨_, hparse, rfl, hfaults, hdistinct⟩
  obtain ⟨hname, hlocale⟩ := Workspace.name_loaded (Workspace.empty fresh) g.document
  have hperm : (((Workspace.empty fresh).loaded g.document).committed.entries.map Entry.rule).Perm
      g.document.rules := Snapshot.perm_foldl_insert g.document.rules
  have hperm' := hperm.map Rule.name
  rw [List.map_map, names_document] at hperm'
  refine ⟨h, w', _, hload, Workspace.grammar?_of_load hload hparse, hname, hlocale, hperm', fun v name => ?_⟩
  have hrereads := rereads_loaded hsound hlinked hnames hparse hload v
  exact ⟨hrereads.exists_compile_iff name, fun graph graph' hgraph hgraph' spoken o o' hwildcards hlimits hlimits' =>
    hrereads.parse_isSome_iff hgraph hgraph' hwildcards hlimits hlimits'⟩

/-- A rule with a repetition in a sequence, and one with weights. -/
def politeRules : List Rule :=
  [⟨"go", true, .sequence [.count (.token "please") 1 (.finite 2) none,
      .sequence [.reference ⟨"lamp", none⟩, .tag " on "]]⟩,
   ⟨"lamp", false, .alternatives [.token "red", .token "big green"] (some [⟨0x3F800000⟩, ⟨0⟩])⟩]

/-- The grammar that has these rules after a commit. -/
def polite : Grammar := (empty "polite" (some "en") default).run (politeRules.map .addRule ++ [.commit])

theorem forall_polite {P : Rule → Prop} (h : ∀ r ∈ politeRules, P r) : ∀ e ∈ polite.committed.entries, P e.rule := by
  have hrules : polite.committed.entries.map Entry.rule = politeRules := rfl
  exact List.forall_mem_map.mp (hrules ▸ h)

theorem polite_writable : polite.committed.Writable where
  name := ⟨by decide, List.all_eq_true.mp (by decide +kernel)⟩
  locale := by
    rintro locale ⟨⟩
    exact ⟨by decide, List.all_eq_true.mp (by decide)⟩
  rules := by
    have hgo : Jsgf.IsRuleName "go" := ⟨by decide, List.all_eq_true.mp (by decide)⟩
    have hlamp : Jsgf.IsRuleName "lamp" := ⟨by decide, List.all_eq_true.mp (by decide)⟩
    exact forall_polite (P := fun r => Jsgf.IsRuleName r.name)
      (List.forall_mem_cons.mpr ⟨hgo, List.forall_mem_singleton.mpr hlamp⟩)
  references := by
    have hlamp : Jsgf.IsRuleName "lamp" := ⟨by decide, List.all_eq_true.mp (by decide)⟩
    refine forall_polite (P := fun r => ∀ q ∈ r.body.references, q.Plain) ?_
    refine List.forall_mem_cons.mpr ⟨List.forall_mem_singleton.mpr ?_, List.forall_mem_singleton.mpr nofun⟩
    exact ⟨rfl, hlamp, by decide, by decide⟩
  weights := forall_polite (P := fun r => ∀ w ∈ r.body.allWeights, w ≠ .negativeZero) (by decide)

/-- The entries of these rules. -/
def politeEntries : List Entry := List.zipWith (fun rule id => ⟨rule, id, rule.isPublic⟩) politeRules [0, 1]

/-- The pattern of the first rule. -/
def politePattern : Pattern :=
  .sequence [.count (.token "please") 1 (.finite 2),
    .sequence [.rule "lamp" (.alternatives [.token "red", .token "big green"]), .tag " on "]]

theorem polite_reloaded_language :
    polite.committed.Writable ∧ ∃ h w' f, (Workspace.empty default).load polite.committed.jsgf = .ok (h, w') ∧
      w'.grammar? h = some f ∧ ∃ graph, w'.compile f "go" = .ok graph := by
  obtain ⟨h, w', f, hload, hf, -, -, -, hrules⟩ :=
    reloaded_language default (.inl ⟨"polite", some "en", rfl⟩) rfl polite_writable
  have hstate : (Workspace.empty default).environment polite =
      ⟨⟨"polite", some "en", politeEntries, none, 2, 1⟩, []⟩ := rfl
  have hgraph : (Workspace.empty default).compile polite "go" = .ok (ruleGraph "go" politePattern) := by
    rw [Workspace.compile, hstate]
    cbv
  exact ⟨polite_writable, h, w', f, hload, hf, (hrules (Workspace.empty default) "go").1.mpr ⟨_, hgraph⟩⟩

end Grammar

end SpeechGrammar
