import SpeechGrammar.Proofs.GrammarText
import SpeechGrammar.Proofs.WorkspaceRuns

/-!
# Loading what was written

A document makes a grammar if its rules have distinct names and no faults (`Workspace.grammarOf_eq_ok`), and the grammar
has just these rules, in the same order. What is written of a loaded grammar is again a grammar text, and nothing is
lost in it but the parentheses around sequences within sequences (**`Workspace.parse_jsgf_of_load`**). Written once more
nothing is lost at all.
-/

namespace SpeechGrammar

/-! ## Rules of loaded grammars -/

/-- The rule with its inner sequences spliced in. -/
def Rule.spliced (r : Rule) : Rule := { r with body := r.body.spliced }

/-- What holds of the rules of a loaded grammar: they come out of a text and have no fault. -/
structure Rule.Loaded (r : Rule) : Prop where
  normal : r.Normal
  faultless : Grammar.ruleFault? r = none

namespace Rule.Loaded

variable {r : Rule}

theorem spliced (h : r.Loaded) : r.spliced.Loaded := by
  obtain ⟨hname, hbody⟩ := Grammar.ruleFault?_eq_none_iff.mp h.faultless
  exact ⟨⟨h.normal.name, h.normal.body.spliced⟩,
    Grammar.ruleFault?_eq_none_iff.mpr ⟨hname, Component.fault?_spliced hbody⟩⟩

theorem readable (h : r.Loaded) : r.Readable :=
  ⟨h.normal.name, h.normal.body.readable (Grammar.ruleFault?_eq_none_iff.mp h.faultless).2⟩

theorem reread (h : r.Loaded) : r.reread = r.spliced := congrArg (Rule.mk r.name r.isPublic) h.normal.body.reread

end Rule.Loaded

theorem Rule.spliced_spliced (r : Rule) : r.spliced.spliced = r.spliced :=
  congrArg (Rule.mk r.name r.isPublic) r.body.spliced_spliced

namespace Snapshot

variable {s t : Snapshot} {rule : Rule} {rules : List Rule}

/-- What holds of the states of loaded grammars. -/
structure Loaded (s : Snapshot) : Prop where
  name : Jsgf.IsGrammarName s.name
  locale : Jsgf.IsLocale s.locale
  rules : ∀ e ∈ s.entries, e.rule.Loaded

/-- The document with the name, the locale and the rules of the state, inner sequences spliced in. -/
def splicedDocument (s : Snapshot) : Jsgf.Document := ⟨s.name, s.locale, [], s.entries.map fun e => e.rule.spliced⟩

/-- The text of a loaded state is read with the inner sequences spliced in. -/
theorem Loaded.parse_jsgf (h : s.Loaded) : Jsgf.Document.parse s.jsgf = .ok s.splicedDocument := by
  have hreread : s.entries.map (fun e => e.rule.reread) = s.entries.map fun e => e.rule.spliced :=
    List.map_congr_left fun e he => (h.rules e he).reread
  rw [Snapshot.parse_jsgf ⟨h.name, h.locale, fun e he => (h.rules e he).readable⟩, hreread]
  rfl

/-- A state with the rules that were read is a loaded one, and these are the rules that are read of it. -/
theorem Loaded.again (h : s.Loaded) (hname : t.name = s.name) (hlocale : t.locale = s.locale)
    (hrules : t.entries.map Entry.rule = s.splicedDocument.rules) :
    t.Loaded ∧ t.splicedDocument = s.splicedDocument := by
  have hspliced : ∀ r ∈ s.splicedDocument.rules, r.Loaded ∧ r.spliced = r :=
    List.forall_mem_map.mpr fun e he => ⟨(h.rules e he).spliced, e.rule.spliced_spliced⟩
  rw [← hrules, List.forall_mem_map] at hspliced
  refine ⟨⟨hname ▸ h.name, hlocale ▸ h.locale, fun e he => (hspliced e he).1⟩, ?_⟩
  have hsame : t.entries.map (fun e => e.rule.spliced) = s.splicedDocument.rules :=
    (List.map_congr_left fun e he => (hspliced e he).2).trans hrules
  rw [splicedDocument, hname, hlocale, hsame]
  rfl

/-! ## Adding several rules -/

/-- The names of the rules are distinct, and there is no rule of such a name yet. -/
structure Fresh (s : Snapshot) (rules : List Rule) : Prop where
  distinct : (rules.map Rule.name).Nodup
  free : ∀ r ∈ rules, r.name ∉ s.entries.map Entry.name

theorem fresh_empty {name : String} {locale : Option String} :
    (empty name locale).Fresh rules ↔ (rules.map Rule.name).Nodup :=
  ⟨Fresh.distinct, fun h => ⟨h, fun _ _ => List.not_mem_nil⟩⟩

theorem mem_names_insert {name : String} :
    name ∈ (s.insert rule).entries.map Entry.name ↔ name = rule.name ∨ name ∈ s.entries.map Entry.name := by
  simp only [List.mem_map, mem_insert, or_and_right, exists_or, exists_eq_left]
  exact or_congr_left eq_comm

theorem fresh_cons : s.Fresh (rule :: rules) ↔ rule.name ∉ s.entries.map Entry.name ∧ (s.insert rule).Fresh rules := by
  constructor
  · rintro ⟨hdistinct, hfree⟩
    rw [List.map_cons, List.nodup_cons] at hdistinct
    rw [List.forall_mem_cons] at hfree
    refine ⟨hfree.1, hdistinct.2, fun r hr hmem => ?_⟩
    rcases mem_names_insert.mp hmem with hsame | hold
    · exact hdistinct.1 (hsame ▸ List.mem_map_of_mem hr)
    · exact hfree.2 r hr hold
  · rintro ⟨hname, hdistinct, hfree⟩
    refine ⟨List.nodup_cons.mpr ⟨fun hmem => ?_, hdistinct⟩, List.forall_mem_cons.mpr ⟨hname, fun r hr hold => ?_⟩⟩
    · obtain ⟨r, hr, hsame⟩ := List.mem_map.mp hmem
      exact hfree r hr (mem_names_insert.mpr (.inl hsame))
    · exact hfree r hr (mem_names_insert.mpr (.inr hold))

theorem apply_add (h : rule.name ∉ s.entries.map Entry.name) : s.apply (.add rule) = .ok (s.insert rule, true) := by
  rw [apply, find?_eq_none_iff.mpr h]
  rfl

/-- Fresh rules are all added. -/
theorem applyAll_add (h : s.Fresh rules) :
    s.applyAll (rules.map .add) = ⟨rules.foldl insert s, !rules.isEmpty, rules.length, []⟩ := by
  induction rules generalizing s with
  | nil => rfl
  | cons rule rules ih =>
    obtain ⟨hname, hrules⟩ := fresh_cons.mp h
    simp only [List.map_cons, applyAll, apply_add hname, ih hrules]
    rfl

/-- If all rules are added, they are fresh. -/
theorem fresh_of_failures (h : (s.applyAll (rules.map .add)).failures = []) : s.Fresh rules := by
  induction rules generalizing s with
  | nil => exact ⟨List.nodup_nil, nofun⟩
  | cons rule rules ih =>
    by_cases hname : rule.name ∈ s.entries.map Entry.name
    · have hfind : (s.find? rule.name).isSome = true :=
        Option.isSome_iff_ne_none.mpr fun hnone => find?_eq_none_iff.mp hnone hname
      simp [applyAll, apply, hfind] at h
    · simp only [List.map_cons, applyAll, apply_add hname] at h
      exact fresh_cons.mpr ⟨hname, ih h⟩

theorem length_foldl_insert (rules : List Rule) :
    (rules.foldl insert s).entries.length = s.entries.length + rules.length := by
  induction rules generalizing s with
  | nil => rfl
  | cons rule rules ih =>
    have hinsert : (s.insert rule).entries.length = s.entries.length + 1 := Cache.Payload.place_perm.length_eq
    rw [List.foldl_cons, ih, hinsert, List.length_cons]
    omega

/-- The entries of rules that are added one after the other. -/
def numbered (first : UInt64) (rules : List Rule) : List Entry :=
  rules.mapIdx fun i rule => ⟨rule, first + .ofNat i, rule.isPublic⟩

/-- The ids go on where they stand after the first of them. -/
theorem add_ofNat_succ (first : UInt64) (i : Nat) : first + .ofNat (i + 1) = first + 1 + .ofNat i := by
  rw [UInt64.ofNat_add, UInt64.add_comm (.ofNat i), UInt64.add_assoc]
  rfl

theorem numbered_cons (first : UInt64) (rule : Rule) (rules : List Rule) :
    numbered first (rule :: rules) = ⟨rule, first, rule.isPublic⟩ :: numbered (first + 1) rules := by
  have hfirst : first + .ofNat 0 = first := UInt64.add_zero first
  simp only [numbered, List.mapIdx_cons, add_ofNat_succ, hfirst]

/-- **Rules that are added come last, each with the next id**, and nothing else changes, as long as the ids last. -/
theorem foldl_insert_eq (hs : s.Consistent) (h : s.Fresh rules) (room : s.nextId.toNat + rules.length < 2 ^ 64) :
    rules.foldl insert s =
      { s with entries := s.entries ++ numbered s.nextId rules, nextId := s.nextId + .ofNat rules.length } := by
  induction rules generalizing s with
  | nil =>
    have hid : s.nextId + .ofNat 0 = s.nextId := UInt64.add_zero s.nextId
    rw [List.foldl_nil, List.length_nil, hid, numbered, List.mapIdx_nil, List.append_nil]
  | cons rule rules ih =>
    obtain ⟨hname, hrules⟩ := fresh_cons.mp h
    rw [List.length_cons] at room
    have hid : (s.insert rule).nextId.toNat = s.nextId.toNat + 1 := toNat_nextId_insert (by omega)
    rw [List.foldl_cons, ih (hs.insert hname (by omega)) hrules (by omega), hs.insert_entries, numbered_cons,
      List.length_cons, add_ofNat_succ, List.append_assoc]
    rfl

/-- Rules that are added come after the others in order, as long as the ids last. -/
theorem rules_foldl_insert (hs : s.Consistent) (h : s.Fresh rules) (room : s.nextId.toNat + rules.length < 2 ^ 64) :
    (rules.foldl insert s).entries.map Entry.rule = s.entries.map Entry.rule ++ rules := by
  have hnumbered : (numbered s.nextId rules).map Entry.rule = rules := by
    refine List.ext_getElem? fun i => ?_
    simp only [numbered, List.getElem?_map, List.getElem?_mapIdx, Option.map_map, Function.comp_def, Option.map_id']
  rw [foldl_insert_eq hs h room, List.map_append, hnumbered]

theorem name_foldl_insert (rules : List Rule) :
    (rules.foldl insert s).name = s.name ∧ (rules.foldl insert s).locale = s.locale := by
  induction rules generalizing s with
  | nil => exact ⟨rfl, rfl⟩
  | cons rule rules ih => exact ih

theorem mem_foldl_insert {e : Entry} (he : e ∈ (rules.foldl insert s).entries) : e.rule ∈ rules ∨ e ∈ s.entries := by
  induction rules generalizing s with
  | nil => exact .inr he
  | cons rule rules ih =>
    rcases ih he with hmem | hmem
    · exact .inl (List.mem_cons_of_mem _ hmem)
    · rcases mem_insert.mp hmem with rfl | hmem
      · exact .inl List.mem_cons_self
      · exact .inr hmem

end Snapshot

/-! ## Loading -/

namespace Workspace

variable {w w' : Workspace} {source : String} {h : Handle} {g : Grammar} {doc : Jsgf.Document}

/-- The grammar with the rules of a document. -/
def loaded (w : Workspace) (doc : Jsgf.Document) : Grammar :=
  w.linkedGrammar { doc.rules.foldl Snapshot.insert (.empty doc.name doc.locale) with
    generation := if doc.rules.isEmpty then 0 else 1 }

theorem name_loaded (w : Workspace) (doc : Jsgf.Document) :
    (w.loaded doc).committed.name = doc.name ∧ (w.loaded doc).committed.locale = doc.locale :=
  Snapshot.name_foldl_insert doc.rules

theorem commitOrder_add (rules : List Rule) : Snapshot.commitOrder (rules.map .add) = rules.map .add := by
  have hnone : ∀ c ∈ rules.map Change.add, c.isSetRoot = false := List.forall_mem_map.mpr fun _ _ => rfl
  rw [Snapshot.commitOrder, List.filter_eq_self.mpr (by simpa using hnone),
    List.filter_eq_nil_iff.mpr (by simpa using hnone), List.append_nil]

/-- The commit of rules with distinct names adds all of them. -/
theorem commit_queued (hnames : (doc.rules.map Rule.name).Nodup) :
    (w.queued doc).commit = (w.loaded doc, .ok (!doc.rules.isEmpty)) := by
  have hfresh : (Snapshot.empty doc.name doc.locale).Fresh doc.rules := Snapshot.fresh_empty.mpr hnames
  have hall : (w.queued doc).committed.applyAll (Snapshot.commitOrder (w.queued doc).pending) =
      ⟨doc.rules.foldl Snapshot.insert (.empty doc.name doc.locale), !doc.rules.isEmpty, doc.rules.length, []⟩ := by
    show (Snapshot.empty doc.name doc.locale).applyAll (Snapshot.commitOrder (doc.rules.map .add)) = _
    rw [commitOrder_add, Snapshot.applyAll_add hfresh]
  rw [Grammar.commit, hall, loaded]
  cases doc.rules <;> rfl

/-- **A document makes a grammar if its rules have distinct names and no faults**, and it has just these rules. -/
theorem grammarOf_eq_ok :
    w.grammarOf doc = .ok g ↔
      (∀ rule ∈ doc.rules, Grammar.ruleFault? rule = none) ∧ (doc.rules.map Rule.name).Nodup ∧ g = w.loaded doc := by
  rw [grammarOf_eq_ok_iff]
  refine and_congr_right fun _ => ⟨?_, ?_⟩
  · rintro ⟨rfl, changed, hok⟩
    have hnames : (doc.rules.map Rule.name).Nodup := by
      have hreport : Grammar.report ((Snapshot.empty doc.name doc.locale).applyAll
          (Snapshot.commitOrder (doc.rules.map .add))) = .ok changed := hok
      rw [commitOrder_add, Grammar.report] at hreport
      split at hreport
      · rename_i hfailures
        exact (Snapshot.fresh_of_failures (List.isEmpty_iff.mp hfailures)).distinct
      · cases hreport
    exact ⟨hnames, by rw [commit_queued hnames]⟩
  · rintro ⟨hnames, rfl⟩
    rw [commit_queued hnames]
    exact ⟨rfl, _, rfl⟩

/-- A text is loaded if it is a grammar text of a free name whose rules have distinct names and no faults. -/
theorem exists_load_iff :
    (∃ h w', w.load source = .ok (h, w')) ↔
      ∃ doc, Jsgf.Document.parse source = .ok doc ∧ w.handle? doc.name = none ∧
        (∀ rule ∈ doc.rules, Grammar.ruleFault? rule = none) ∧ (doc.rules.map Rule.name).Nodup := by
  constructor
  · rintro ⟨h, w', hload⟩
    obtain ⟨doc, g, hparse, hfree, hg, -⟩ := load_eq_ok_iff.mp hload
    obtain ⟨hfaults, hnames, -⟩ := grammarOf_eq_ok.mp hg
    exact ⟨doc, hparse, hfree, hfaults, hnames⟩
  · rintro ⟨doc, hparse, hfree, hfaults, hnames⟩
    have hregister := register_eq_ok_iff.mpr ⟨(name_loaded w doc).1 ▸ hfree, rfl, rfl⟩
    exact ⟨_, _, load_eq_ok_iff.mpr ⟨doc, _, hparse, hfree, grammarOf_eq_ok.mpr ⟨hfaults, hnames, rfl⟩, hregister⟩⟩

/-- What is found after loading has the rules of the document. -/
theorem grammar?_of_load (hload : w.load source = .ok (h, w')) (hparse : Jsgf.Document.parse source = .ok doc) :
    w'.grammar? h = some (w.loaded doc) := by
  obtain ⟨doc', g, hparse', -, hg, hregister⟩ := load_eq_ok_iff.mp hload
  obtain rfl : doc = doc' := Except.ok.inj (hparse.symm.trans hparse')
  obtain ⟨-, -, rfl⟩ := grammarOf_eq_ok.mp hg
  obtain ⟨-, rfl, rfl⟩ := register_eq_ok_iff.mp hregister
  exact grammar?_keep_new w _

/-- The committed state of a grammar that is made of a text. -/
theorem committed_loaded (hparse : Jsgf.Document.parse source = .ok doc)
    (hfaults : ∀ rule ∈ doc.rules, Grammar.ruleFault? rule = none) : (w.loaded doc).committed.Loaded := by
  obtain ⟨hname, hlocale⟩ := name_loaded w doc
  have hdoc := Jsgf.Document.normal_of_parse hparse
  refine ⟨hname ▸ hdoc.name, hlocale ▸ hdoc.locale, fun e he => ?_⟩
  have hmem := (Snapshot.mem_foldl_insert he).resolve_right List.not_mem_nil
  exact ⟨hdoc.rules e.rule hmem, hfaults e.rule hmem⟩

theorem length_loaded (w : Workspace) (doc : Jsgf.Document) :
    (w.loaded doc).committed.entries.length = doc.rules.length :=
  (Snapshot.length_foldl_insert doc.rules).trans (Nat.zero_add _)

/-- The rules are those of the document in the same order, as long as the ids last. -/
theorem rules_loaded (hnames : (doc.rules.map Rule.name).Nodup) (room : doc.rules.length < 2 ^ 64) :
    (w.loaded doc).committed.entries.map Entry.rule = doc.rules :=
  Snapshot.rules_foldl_insert (Snapshot.empty_consistent doc.name doc.locale) (Snapshot.fresh_empty.mpr hnames)
    (by show 0 + doc.rules.length < 2 ^ 64; omega)

/-- **A loaded grammar is read back from its text**: the name and the locale are the same, and so are the rules and
their order, but for sequences within sequences, which are spliced in. After that nothing changes any more: what is
written of the rules that were read gives these rules, and so the text can be loaded in place of the first one. -/
theorem parse_jsgf_of_load (hload : w.load source = .ok (h, w')) :
    ∃ g doc, w'.grammar? h = some g ∧ Jsgf.Document.parse g.committed.jsgf = .ok doc ∧
      doc.name = g.name ∧ doc.locale = g.committed.locale ∧ doc.imports = [] ∧
      doc.rules = g.committed.entries.map (fun e => e.rule.spliced) ∧
      (∀ t : Snapshot, t.name = doc.name → t.locale = doc.locale → t.entries.map Entry.rule = doc.rules →
        Jsgf.Document.parse t.jsgf = .ok doc) ∧
      ∀ v : Workspace, v.handle? doc.name = none → doc.rules.length < 2 ^ 64 →
        ∃ k v' f, v.load g.committed.jsgf = .ok (k, v') ∧ v'.grammar? k = some f ∧
          f.name = doc.name ∧ f.committed.locale = doc.locale ∧ f.committed.entries.map Entry.rule = doc.rules := by
  obtain ⟨doc, hparse, -, hfaults, hnames⟩ := exists_load_iff.mp ⟨h, w', hload⟩
  have hloaded : (w.loaded doc).committed.Loaded := committed_loaded hparse hfaults
  have hread := hloaded.parse_jsgf
  refine ⟨w.loaded doc, _, grammar?_of_load hload hparse, hread, rfl, rfl, rfl, rfl, ?_, fun v hfree room => ?_⟩
  · intro t hname hlocale hrules
    obtain ⟨ht, hsame⟩ := hloaded.again hname hlocale hrules
    exact hsame ▸ ht.parse_jsgf
  · -- the rules that were read have the same names, and splicing makes no fault, so they can be loaded as well
    have hfaults' : ∀ rule ∈ (w.loaded doc).committed.splicedDocument.rules, Grammar.ruleFault? rule = none :=
      List.forall_mem_map.mpr fun e he => (hloaded.rules e he).spliced.faultless
    have hnames' : ((w.loaded doc).committed.splicedDocument.rules.map Rule.name).Nodup := by
      have hrules := rules_loaded (w := w) hnames (by simpa [Snapshot.splicedDocument, length_loaded] using room)
      have hsame : (w.loaded doc).committed.splicedDocument.rules.map Rule.name = doc.rules.map Rule.name := by
        rw [← hrules, Snapshot.splicedDocument, List.map_map, List.map_map]
        rfl
      exact hsame ▸ hnames
    obtain ⟨k, v', hagain⟩ := exists_load_iff.mpr ⟨_, hread, hfree, hfaults', hnames'⟩
    obtain ⟨hname, hlocale⟩ := name_loaded v (w.loaded doc).committed.splicedDocument
    exact ⟨k, v', _, hagain, grammar?_of_load hagain hread, hname, hlocale, rules_loaded hnames' room⟩

/-- A grammar text with a sequence within a sequence. -/
def lampText : String :=
  "#JSGF V1.0 UTF-8 en;\ngrammar lamps;\npublic <go> = turn (on the) <lamp> {go };\n" ++
    "<lamp> = /2/ \"big one\" | /0.5/ [small]*;\n"

/-- What is written of the grammar. -/
def lampTextAgain : String :=
  "#JSGF V1.0 UTF-8 en;\ngrammar lamps;\n\npublic <go> = turn on the <lamp> {go};\n" ++
    "<lamp> = /2/ \"big one\" | /0.5/ ([small])*;\n"

theorem lampText_load :
    ∃ h w' g, (empty default).load lampText = .ok (h, w') ∧ w'.grammar? h = some g ∧
      g.committed.jsgf = lampTextAgain ∧ g.committed.entries.length = 2 := by
  have hload : ((empty default).load lampText).toOption.bind (fun loaded =>
      (loaded.2.grammar? loaded.1).map fun g => (g.committed.jsgf, g.committed.entries.length)) =
        some (lampTextAgain, 2) := by
    decide +kernel
  generalize (empty default).load lampText = result at hload ⊢
  obtain e | ⟨h, w'⟩ := result
  · cases hload
  · obtain ⟨g, hg, hwritten⟩ := Option.map_eq_some_iff.mp hload
    obtain ⟨hjsgf, hlength⟩ := Prod.mk.inj hwritten
    exact ⟨h, w', g, rfl, hg, hjsgf, hlength⟩

theorem lampText_parse_jsgf :
    ∃ h w' g doc, (empty default).load lampText = .ok (h, w') ∧ w'.grammar? h = some g ∧
      Jsgf.Document.parse lampTextAgain = .ok doc ∧ doc.name = g.name ∧ doc.locale = g.committed.locale ∧
      doc.rules = g.committed.entries.map (fun e => e.rule.spliced) ∧
      ∃ k v f, (empty default).load lampTextAgain = .ok (k, v) ∧ v.grammar? k = some f ∧
        f.committed.entries.map Entry.rule = doc.rules ∧ Jsgf.Document.parse f.committed.jsgf = .ok doc := by
  obtain ⟨h, w', g, hload, hg, hjsgf, hlength⟩ := lampText_load
  obtain ⟨g', doc, hg', hparse, hname, hlocale, -, hrules, hagain, hreload⟩ := parse_jsgf_of_load hload
  obtain rfl : g = g' := Option.some.inj (hg.symm.trans hg')
  rw [hjsgf] at hparse hreload
  obtain ⟨k, v, f, hload', hf, hname', hlocale', hrules'⟩ := hreload (empty default) rfl (by simp [hrules, hlength])
  exact ⟨h, w', g, doc, hload, hg, hparse, hname, hlocale, hrules, k, v, f, hload', hf, hrules',
    hagain f.committed hname' hlocale' hrules'⟩

end Workspace

end SpeechGrammar
