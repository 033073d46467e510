import SpeechGrammar.Proofs.ReloadedLanguage
import SpeechGrammar.Proofs.Requests
import SpeechGrammar.Proofs.WrittenAsRead

/-!
# Loading a grammar text

A component that comes out of a text has bounds in order, one weight for each branch, and no weight that is negative. So
it has a fault only if a token is blank, if a weight is infinite, or if a reference has no name
(**`Component.Normal.fault?_eq_none_iff`**). A text of which none of this holds is loaded if its grammar and its
rules have names of their own, and the workspace then has one more grammar, with the rules of the text and nothing else
(**`Workspace.load_loads_everything`**).
-/

namespace SpeechGrammar

/-! ## Faults of what was read -/

/-- Of an absolute value that is too large for a number. -/
def Single.IsInfinite (x : Single) : Prop := x.magnitude = Single.infinite

/-- A weight that comes out of a text is refused only if it is infinite. -/
theorem Single.IsWeight.refused_iff {x : Single} (h : x.IsWeight) :
    (!x.isFinite || x.isNegative) = true ↔ x.IsInfinite := by
  obtain ⟨hsigned, hnan⟩ := h
  rw [isNegative, hsigned, Bool.false_and, Bool.false_and, Bool.or_false, Bool.not_eq_true']
  simp only [isFinite, isNaN, IsInfinite, decide_eq_false_iff_not] at hnan ⊢
  omega

namespace Component

mutual

/-- The texts of all tokens of a component, from left to right. -/
def texts : Component → List String
  | .token text => [text]
  | .tag _ => []
  | .reference _ => []
  | .sequence items => textsAmong items
  | .alternatives branches _ => textsAmong branches
  | .count body _ _ _ => texts body

/-- The texts of all tokens of a list of components, from left to right. -/
def textsAmong : List Component → List String
  | [] => []
  | c :: cs => texts c ++ textsAmong cs

end

/-- Every token has a word, no weight is infinite, and every reference names a rule. -/
structure Filled (texts : List String) (weights : List Single) (references : List Reference) : Prop where
  tokens : ∀ text ∈ texts, ∃ c ∈ text.toList, Text.isBlank c = false
  weights : ∀ w ∈ weights, ¬w.IsInfinite
  references : ∀ r ∈ references, r.rule ≠ ""

theorem filled_append {t t' : List String} {w w' : List Single} {r r' : List Reference} :
    Filled (t ++ t') (w ++ w') (r ++ r') ↔ Filled t w r ∧ Filled t' w' r' := by
  constructor
  · rintro ⟨htokens, hweights, hreferences⟩
    rw [List.forall_mem_append] at htokens hweights hreferences
    exact ⟨⟨htokens.1, hweights.1, hreferences.1⟩, ⟨htokens.2, hweights.2, hreferences.2⟩⟩
  · rintro ⟨h, h'⟩
    exact ⟨List.forall_mem_append.mpr ⟨h.tokens, h'.tokens⟩, List.forall_mem_append.mpr ⟨h.weights, h'.weights⟩,
      List.forall_mem_append.mpr ⟨h.references, h'.references⟩⟩

theorem filled_weights {ws : List Single} : Filled [] ws [] ↔ ∀ w ∈ ws, ¬w.IsInfinite :=
  ⟨Filled.weights, fun h => ⟨nofun, h, nofun⟩⟩

/-- Weights of a text, one for each branch, are refused only if one of them is infinite. -/
theorem weightsFault?_eq_none_iff {branches : Nat} {ws : List Single} (hlength : ws.length = branches)
    (hws : ∀ w ∈ ws, w.IsWeight) : weightsFault? branches (some ws) = none ↔ ∀ w ∈ ws, ¬w.IsInfinite := by
  rw [weightsFault?, if_neg (not_not.mpr hlength)]
  constructor
  · intro h w hw hinfinite
    have hany : ws.any (fun w => !w.isFinite || w.isNegative) = true :=
      List.any_eq_true.mpr ⟨w, hw, (hws w hw).refused_iff.mpr hinfinite⟩
    rw [if_pos hany] at h
    cases h
  · intro h
    refine if_neg fun hany => ?_
    obtain ⟨w, hw, hrefused⟩ := List.any_eq_true.mp hany
    exact h w hw ((hws w hw).refused_iff.mp hrefused)

mutual

/-- **What was read has a fault only if it has a blank token, an infinite weight or a reference without a name.** -/
theorem Normal.fault?_eq_none_iff : ∀ {c : Component}, c.Normal →
    (c.fault? = none ↔ Filled c.texts c.allWeights c.references)
  | .token text, _ => by
    rw [fault?, ite_eq_right_iff, List.isEmpty_iff, Text.words_eq_nil_iff]
    simp only [reduceCtorEq, imp_false, not_forall, exists_prop, Bool.not_eq_true]
    exact ⟨fun h => ⟨List.forall_mem_singleton.mpr h, nofun, nofun⟩, fun h => h.tokens text List.mem_cons_self⟩
  | .tag _, _ => ⟨fun _ => ⟨nofun, nofun, nofun⟩, fun _ => rfl⟩
  | .reference r, _ => by
    rw [fault?, ite_eq_right_iff, String.isEmpty_iff]
    simp only [reduceCtorEq, imp_false]
    exact ⟨fun h => ⟨nofun, nofun, List.forall_mem_singleton.mpr h⟩, fun h => h.references r List.mem_cons_self⟩
  | .sequence _, h => h.2.faultAmong?_eq_none_iff
  | .alternatives _ none, h => h.2.faultAmong?_eq_none_iff
  | .alternatives branches (some weights), h => by
    obtain ⟨-, hlength, hweights, hbranches⟩ := h
    have hsplit : Filled (texts (.alternatives branches weights)) (allWeights (.alternatives branches weights))
        (references (.alternatives branches weights)) ↔
          (∀ w ∈ weights, ¬w.IsInfinite) ∧
            Filled (textsAmong branches) (allWeightsAmong branches) (referencesAll branches) :=
      (filled_append (t := []) (r := [])).trans (and_congr_left' filled_weights)
    rw [fault?, Option.or_eq_none_iff, hsplit]
    exact and_congr (weightsFault?_eq_none_iff hlength hweights) hbranches.faultAmong?_eq_none_iff
  | .count body min max _, h => by
    obtain ⟨hbounds, rfl, hbody⟩ := h
    have hnone : boundsFault? min max = none := by
      rcases hbounds with ⟨rfl, rfl⟩ | ⟨rfl, rfl⟩ | ⟨rfl, rfl⟩ <;> rfl
    rw [fault?, hnone]
    exact hbody.fault?_eq_none_iff

theorem NormalAll.faultAmong?_eq_none_iff : ∀ {cs : List Component}, NormalAll cs →
    (faultAmong? cs = none ↔ Filled (textsAmong cs) (allWeightsAmong cs) (referencesAll cs))
  | [], _ => ⟨fun _ => ⟨nofun, nofun, nofun⟩, fun _ => rfl⟩
  | _ :: _, h => by
    rw [faultAmong?, Option.or_eq_none_iff, textsAmong, allWeightsAmong, referencesAll, filled_append]
    exact and_congr h.1.fault?_eq_none_iff h.2.faultAmong?_eq_none_iff

end

end Component

/-! ## How many rules a text has -/

namespace Jsgf

namespace Reader

theorem takes_header : Takes header 0 := by
  have hword : Takes headerWord 0 := takes_run.map.weaken (Nat.zero_le 1)
  have hversion : Takes (spaces *> cut headerWord *> pure ()) 0 :=
    takes_skip.seqRight (hword.cut.seqRight (takes_pure ()))
  have hwords : Takes (atMost (spaces *> headerWord) 2) 0 := (takes_skip.seqRight hword).atMost 2
  refine Takes.weaken (takes_layout.bind fun _ => (takes_literal _).cut.expecting.bind fun _ =>
    hversion.expecting.bind fun _ => hwords.bind fun _ => takes_skip.bind fun _ => (takes_char ';').cut.bind fun _ =>
      takes_pure _) ?_
  exact Nat.zero_le _

theorem takes_declaration : Takes declaration 0 := by
  refine Takes.weaken (takes_layout.bind fun _ => (takes_literal _).cut.expecting.bind fun _ => takes_layout.bind
    fun _ => takes_run.cut.expecting.bind fun _ => takes_layout.bind fun _ => (takes_char ';').cut.bind fun _ =>
      takes_pure _) ?_
  exact Nat.zero_le _

end Reader

/-- Every rule takes a character of the text at least. -/
theorem Document.length_rules_le {source : String} {doc : Document} (h : Document.parse source = .ok doc) :
    doc.rules.length ≤ source.length := by
  unfold Document.parse at h
  split at h
  · rename_i rest hread
    cases h
    obtain ⟨locale, s, hheader, hread⟩ := Reader.exists_of_bind hread
    obtain ⟨name, t, hdeclaration, hread⟩ := Reader.exists_of_bind hread
    obtain ⟨imports, u, himports, hread⟩ := Reader.exists_of_bind hread
    obtain ⟨rules, v, hrules, hread⟩ := Reader.exists_of_bind hread
    obtain ⟨_, _, -, hread⟩ := Reader.exists_of_bind hread
    obtain ⟨_, _, -, hread⟩ := Reader.exists_of_bind hread
    cases hread
    have hs := (Reader.takes_header hheader).2
    have ht := (Reader.takes_declaration hdeclaration).2
    have hu := ((Reader.takes_importStatement.weaken (Nat.zero_le 1)).many himports).2
    have hv := (Reader.chain_of_many hrules).length_le Reader.takes_ruleDefinition
    rw [String.length_toList] at hs
    dsimp only
    omega
  · cases h

end Jsgf

namespace Workspace

variable {w w' : Workspace} {source : String} {h : Handle} {doc : Jsgf.Document}

/-! ## Loading -/

/-- The grammar with the rules of a document has these in order, under the first ids. -/
theorem committed_loaded_eq (hnames : (doc.rules.map Rule.name).Nodup) (room : doc.rules.length < 2 ^ 64) :
    (w.loaded doc).committed =
      { name := doc.name
        locale := doc.locale
        entries := doc.rules.mapIdx fun i rule => ⟨rule, .ofNat i, rule.isPublic⟩
        explicitRoot := none
        nextId := .ofNat doc.rules.length
        generation := if doc.rules.isEmpty then 0 else 1 } := by
  have hall := Snapshot.foldl_insert_eq (Snapshot.empty_consistent doc.name doc.locale)
    (Snapshot.fresh_empty.mpr hnames) (by show 0 + doc.rules.length < 2 ^ 64; omega)
  have hzero (n : Nat) : 0 + UInt64.ofNat n = .ofNat n := UInt64.zero_add _
  have hcommitted : (w.loaded doc).committed =
      { doc.rules.foldl Snapshot.insert (.empty doc.name doc.locale) with
        generation := if doc.rules.isEmpty then 0 else 1 } := rfl
  rw [hcommitted, hall]
  simp only [Snapshot.numbered, Snapshot.empty, hzero, List.nil_append]

/-- A request to load a text is answered with a handle just if the text can be loaded, with the same workspace. -/
theorem answer_load_eq_ok_iff : w.answer (.load source) = (.ok h, w') ↔ w.load source = .ok (h, w') := by
  have hanswers := w.answers_load source
  rw [answer]
  generalize w.load source = loaded, w.loadInPlace source = answered at hanswers
  cases hanswers with
  | done => simp only [Except.ok.injEq, Prod.mk.injEq]
  | refused | undone => simp only [Prod.mk.injEq, reduceCtorEq, false_and]

theorem exists_answer_load_iff :
    (∃ h, (w.answer (.load source)).1 = .ok h) ↔ ∃ h w', w.load source = .ok (h, w') := by
  simp only [← answer_load_eq_ok_iff]
  constructor
  · rintro ⟨h, hanswer⟩
    exact ⟨h, _, Prod.ext hanswer rfl⟩
  · rintro ⟨h, w', hanswer⟩
    exact ⟨h, congrArg Prod.fst hanswer⟩

/-- **A text is loaded as a whole, or it is refused for one of these reasons:** it is no grammar text, its grammar has a
name that is registered, two of its rules have the same name, a token is blank, a weight is infinite, or a reference has
no name. If it is loaded, the workspace has one more grammar, which is registered: its state has the rules of the text in
order, with the ids from zero on, of which the public ones can be activated, and no other field is set. The ids are
numbers of 64 bits, so this is said of texts that fit in a memory with such addresses. -/
theorem load_loads_everything (w : Workspace) (source : String) :
    ((∃ h, (w.answer (.load source)).1 = .ok h) ↔
      ∃ doc, Jsgf.Document.parse source = .ok doc ∧ w.handle? doc.name = none ∧ (doc.rules.map Rule.name).Nodup ∧
        ∀ rule ∈ doc.rules, Component.Filled rule.body.texts rule.body.allWeights rule.body.references) ∧
    ∀ h, (w.answer (.load source)).1 = .ok h → source.length < 2 ^ 64 →
      ∃ doc g, Jsgf.Document.parse source = .ok doc ∧ h = w.grammars.size ∧
        (w.answer (.load source)).2 =
          { w with grammars := w.grammars.push g, registered := (doc.name, h) :: w.registered } ∧
        g.pending = [] ∧
        g.committed =
          { name := doc.name
            locale := doc.locale
            entries := doc.rules.mapIdx fun i rule => ⟨rule, .ofNat i, rule.isPublic⟩
            explicitRoot := none
            nextId := .ofNat doc.rules.length
            generation := if doc.rules.isEmpty then 0 else 1 } := by
  constructor
  · rw [exists_answer_load_iff, exists_load_iff]
    -- the names of the rules are read as names, and the bodies are normal
    refine exists_congr fun doc => and_congr_right fun hparse => and_congr_right fun _ => ?_
    rw [and_comm]
    refine and_congr_right fun _ => forall₂_congr fun rule hrule => ?_
    have hnormal := (Jsgf.Document.normal_of_parse hparse).rules rule hrule
    rw [Grammar.ruleFault?_eq_none_iff, and_iff_right hnormal.name.isName]
    exact hnormal.body.fault?_eq_none_iff
  · intro h hanswer hsize
    obtain ⟨doc, g, hparse, -, hg, hregister⟩ :=
      load_eq_ok_iff.mp (answer_load_eq_ok_iff.mp (Prod.ext hanswer rfl))
    obtain ⟨-, hnames, rfl⟩ := grammarOf_eq_ok.mp hg
    obtain ⟨-, rfl, hw'⟩ := register_eq_ok_iff.mp hregister
    have room := Nat.lt_of_le_of_lt (Jsgf.Document.length_rules_le hparse) hsize
    refine ⟨doc, w.loaded doc, hparse, rfl, hw'.trans ?_, rfl, committed_loaded_eq hnames room⟩
    rw [show (w.loaded doc).name = doc.name from (name_loaded w doc).1]
    rfl

/-- The two rules of a text get the first two ids, and only the public one can be activated. -/
theorem lampText_loads_everything :
    ∃ h g, ((empty default).answer (.load lampText)).1 = .ok h ∧ h = 0 ∧
      ((empty default).answer (.load lampText)).2 = ⟨default, #[g], [("lamps", 0)]⟩ ∧ g.pending = [] ∧
      g.committed.ruleNames = ["go", "lamp"] ∧ g.committed.entries.map Entry.id = [0, 1] ∧
      g.committed.entries.map Entry.activatable = [true, false] ∧ g.committed.nextId = 2 ∧ g.committed.generation = 1 := by
  obtain ⟨_, w', -, hload, -⟩ := lampText_load
  obtain ⟨h, hanswer⟩ := exists_answer_load_iff.mpr ⟨_, w', hload⟩
  obtain ⟨doc, g, hparse, rfl, hw', hqueue, hcommitted⟩ :=
    (load_loads_everything (empty default) lampText).2 h hanswer (by decide +kernel)
  have hread : (Jsgf.Document.parse lampText).toOption.map (fun doc =>
      (doc.name, doc.rules.map fun rule => (rule.name, rule.isPublic))) =
        some ("lamps", [("go", true), ("lamp", false)]) := by
    decide +kernel
  rw [hparse] at hread
  obtain ⟨hname, hrules⟩ := Prod.mk.inj (Option.some.inj hread)
  obtain ⟨go, lamp, hboth⟩ : ∃ go lamp, doc.rules = [go, lamp] :=
    List.length_eq_two.mp (by simpa using congrArg List.length hrules)
  rw [hboth] at hrules hcommitted
  simp only [List.map_cons, List.map_nil, List.cons.injEq, Prod.mk.injEq, and_true] at hrules
  obtain ⟨⟨hgo, hgoPublic⟩, hlamp, hlampPublic⟩ := hrules
  rw [hname] at hw'
  refine ⟨_, g, hanswer, rfl, hw', hqueue, ?_⟩
  rw [hcommitted]
  simp [Snapshot.ruleNames, Entry.name, hgo, hlamp, hgoPublic, hlampPublic]

end Workspace

end SpeechGrammar
