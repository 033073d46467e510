import SpeechGrammar.Proofs.LegibleComponents
import SpeechGrammar.Proofs.Reloading

/-!
# Grammars with a legible text

A grammar takes rules that cannot be read where they are written: more characters may stand in their names and in their
references than the reader of grammar texts takes, and a weight may be a negative zero. The rule is clear if it has none
of these (`Rule.Clear`). The text of a grammar can be read if its rules are clear, with their names and whether they are
public (**`Snapshot.parse_of_clear`**), and it cannot be read if one of them is not (**`Snapshot.parse_iff_clear`**), as
long as no reference closes its own bracket. So the rules that are added to a grammar can be read in its text exactly if
they are clear (**`Grammar.parse_added`**).
-/

namespace SpeechGrammar

/-- The rule can be read where it is written. -/
structure Rule.Clear (r : Rule) : Prop where
  name : Jsgf.IsRuleName r.name
  body : r.body.Clear

namespace Jsgf.Reader

variable {r : Rule} {rules : List Rule} {ws : List Char}

/-! ## Rules -/

/-- Where the rule is written, reading fails, whatever follows. There may be blank characters before it. -/
def FailsRule (r : Rule) : Prop :=
  ∀ ws, (∀ c ∈ ws, Text.isBlank c = true) → ∀ rest, Aborts ruleDefinition (ws ++ (r.print ++ rest))

theorem failsRule_of_definition
    (h : ∀ isPublic rest, Aborts (definitionFromName isPublic)
      (r.name.toList ++ '>' :: ' ' :: '=' :: ' ' :: (r.body.print ++ ';' :: rest))) : FailsRule r := by
  intro ws hws rest
  obtain ⟨isPublic, -, hstart⟩ := ruleDefinition_start r hws rest
  rw [Aborts, hstart]
  exact h isPublic rest

/-- A name that a grammar takes does not close its own bracket, but it may hold other characters that are not read. -/
theorem failsRule_of_name (hname : Rule.isName r.name = true) (h : ¬ IsRuleName r.name) : FailsRule r := by
  rw [Rule.isName, Bool.and_eq_true, Bool.not_eq_true', Bool.not_eq_true', ← Bool.not_eq_true, String.isEmpty_iff,
    List.any_eq_false] at hname
  have hne : r.name.toList ≠ [] := fun hnil => hname.1 (String.toList_inj.mp hnil)
  have hbad : ∃ c ∈ r.name.toList, isRuleNameChar c = false := by
    simpa only [IsRuleName, not_and, not_forall, exists_prop, Bool.not_eq_true] using not_and.mp h hne
  have hclose : '>' ∉ r.name.toList := fun hmem => hname.2 '>' hmem (by decide)
  refine failsRule_of_definition fun isPublic rest => ?_
  rcases run_before_char hbad hclose ('>' :: ' ' :: '=' :: ' ' :: (r.body.print ++ ';' :: rest)) with
    hrefuses | ⟨good, t, hrun, hstops⟩
  · exact hrefuses.fails.cut.expecting.bind
  · exact aborts_bind_of_ok (expecting_of_ok (cut_of_ok hrun)) hstops.fails.cut.bind

theorem failsRule_of_body (hname : IsRuleName r.name) (h : Illegible r.body) : FailsRule r := by
  refine failsRule_of_definition fun isPublic rest => ?_
  have hlayout (t : List Char) : layout (' ' :: '=' :: t) = .ok ((), '=' :: t) :=
    layout_space (solid_cons (by decide) (by decide) t)
  exact aborts_bind_of_ok (ruleName_print hname _) (aborts_bind_of_ok (cut_of_ok (char_cons '>' _))
    (aborts_bind_of_ok (hlayout _) (aborts_bind_of_ok (cut_of_ok (char_cons '=' _))
      (h.expansion _).cut.expecting.bind)))

theorem readsRule_of_clear (hfault : r.body.fault? = none) (hclear : r.Clear) :
    ∃ r', ReadsRule r r' ∧ r'.name = r.name ∧ r'.isPublic = r.isPublic := by
  obtain ⟨xs, hread⟩ := legible_of_clear hfault hclear.body
  exact ⟨_, ruleDefinition_print hclear.name hread, rfl, rfl⟩

theorem failsRule_of_not_clear (hfault : Grammar.ruleFault? r = none) (hcontained : r.body.Contained)
    (hclear : ¬ r.Clear) : FailsRule r := by
  obtain ⟨hname, hbody⟩ := Grammar.ruleFault?_eq_none_iff.mp hfault
  by_cases hrule : IsRuleName r.name
  · refine failsRule_of_body hrule ((legibility hbody hcontained).elim (fun h => ?_) And.right)
    exact absurd ⟨hrule, h.1⟩ hclear
  · exact failsRule_of_name hname hrule

/-! ## Texts -/

/-- Rules one after the other get stuck where one of them fails. -/
theorem getsStuck_rulesText (h : ∀ r ∈ rules, (∃ r', ReadsRule r r') ∨ FailsRule r) (hsome : ∃ r ∈ rules, FailsRule r)
    (hws : ∀ c ∈ ws, Text.isBlank c = true) (rest : List Char) :
    GetsStuck ruleDefinition (ws ++ (rulesText rules ++ rest)) := by
  induction rules generalizing ws with
  | nil =>
    obtain ⟨r, hmem, -⟩ := hsome
    cases hmem
  | cons r rules ih =>
    rw [List.forall_mem_cons] at h
    rw [rulesText_cons]
    have hblank := isBlank_append_newline hws
    obtain ⟨_, hmem, hfails⟩ := hsome
    rcases List.mem_cons.mp hmem with rfl | hmem
    · exact (hfails _ hblank _).getsStuck
    · rcases h.1 with ⟨r', hread⟩ | hfirst
      · have hlater : GetsStuck ruleDefinition ([] ++ (rulesText rules ++ rest)) :=
          ih h.2 ⟨_, hmem, hfails⟩ (List.forall_mem_nil _)
        exact hlater.after (.cons (hread _ hblank _) (.nil _))
      · exact (hfirst _ hblank _).getsStuck

end Jsgf.Reader

namespace Snapshot

open Jsgf.Reader

variable {s : Snapshot}

/-- A text is not read if its rules get stuck. -/
theorem parse_fails (hname : Jsgf.IsGrammarName s.name) (hlocale : Jsgf.IsLocale s.locale)
    (h : GetsStuck ruleDefinition ('\n' :: (rulesText (s.entries.map Entry.rule) ++ ['\n']))) :
    ∃ e, Jsgf.Document.parse s.jsgf = .error e := by
  have hfails : Fails document s.print := by
    rw [print_eq]
    exact fails_bind_of_ok (header_print hlocale _) (fails_bind_of_ok (declaration_print hname _)
      (fails_bind_of_ok (many_importStatement_print _) (h.many takes_ruleDefinition).fails.bind))
  obtain ⟨e, he⟩ := hfails
  exact ⟨⟨s.print, e.rest, e.expected⟩, by simp only [Jsgf.Document.parse, jsgf, String.toList_ofList, he]⟩

/-- **The text of clear rules is read**, with their names in order and whether they are public. -/
theorem parse_of_clear (hname : Jsgf.IsGrammarName s.name) (hlocale : Jsgf.IsLocale s.locale)
    (hbodies : ∀ e ∈ s.entries, e.rule.body.fault? = none) (hclear : ∀ e ∈ s.entries, e.rule.Clear) :
    ∃ doc, Jsgf.Document.parse s.jsgf = .ok doc ∧ doc.name = s.name ∧ doc.locale = s.locale ∧
      doc.rules.map (fun r => (r.name, r.isPublic)) = s.entries.map fun e => (e.rule.name, e.rule.isPublic) := by
  have hall : ∀ r ∈ s.entries.map Entry.rule, ∃ r', ReadsRule r r' ∧ r'.name = r.name ∧ r'.isPublic = r.isPublic :=
    List.forall_mem_map.mpr fun e he => readsRule_of_clear (hbodies e he) (hclear e he)
  obtain ⟨rules, hrules⟩ := exists_forall₂ hall
  refine ⟨_, parse_of_readsRule hname hlocale (hrules.imp fun _ _ h => h.1), rfl, rfl, ?_⟩
  have hheads : List.Forall₂ (· = ·) ((s.entries.map Entry.rule).map fun r => (r.name, r.isPublic))
      (rules.map fun r => (r.name, r.isPublic)) := by
    rw [List.forall₂_map_left_iff, List.forall₂_map_right_iff]
    exact hrules.imp fun _ _ h => Prod.ext h.2.1.symm h.2.2.symm
  rw [List.forall₂_eq_eq_eq] at hheads
  rw [← hheads, List.map_map]
  rfl

/-- **A text is read exactly if its rules are clear**, as long as no reference closes its own bracket. -/
theorem parse_iff_clear (hname : Jsgf.IsGrammarName s.name) (hlocale : Jsgf.IsLocale s.locale)
    (hfaults : ∀ e ∈ s.entries, Grammar.ruleFault? e.rule = none)
    (hcontained : ∀ e ∈ s.entries, e.rule.body.Contained) :
    (∃ doc, Jsgf.Document.parse s.jsgf = .ok doc) ↔ ∀ e ∈ s.entries, e.rule.Clear := by
  have hbodies : ∀ e ∈ s.entries, e.rule.body.fault? = none :=
    fun e he => (Grammar.ruleFault?_eq_none_iff.mp (hfaults e he)).2
  constructor
  · rintro ⟨doc, hdoc⟩
    by_contra hnot
    obtain ⟨e, he, hunclear⟩ : ∃ e ∈ s.entries, ¬ e.rule.Clear := by simpa using hnot
    have hall : ∀ r ∈ s.entries.map Entry.rule, (∃ r', ReadsRule r r') ∨ FailsRule r := by
      refine List.forall_mem_map.mpr fun f hf => ?_
      by_cases hclear : f.rule.Clear
      · obtain ⟨r', hread, -⟩ := readsRule_of_clear (hbodies f hf) hclear
        exact .inl ⟨r', hread⟩
      · exact .inr (failsRule_of_not_clear (hfaults f hf) (hcontained f hf) hclear)
    have hsome : ∃ r ∈ s.entries.map Entry.rule, FailsRule r :=
      ⟨_, List.mem_map_of_mem he, failsRule_of_not_clear (hfaults e he) (hcontained e he) hunclear⟩
    obtain ⟨failure, hfailure⟩ := parse_fails hname hlocale (getsStuck_rulesText hall hsome isBlank_newline ['\n'])
    rw [hdoc] at hfailure
    cases hfailure
  · intro hclear
    obtain ⟨doc, hdoc, -⟩ := parse_of_clear hname hlocale hbodies hclear
    exact ⟨doc, hdoc⟩

end Snapshot

namespace Grammar

variable {g g' h : Grammar} {rules : List Rule} {changed : Bool}

/-! ## Rules that are added -/

/-- What a commit makes of a grammar when it adds rules and none of them fails. -/
theorem committed_addRules (hpending : h.pending = []) (hadd : h.addRules rules = .ok g)
    (hcommit : g.commit = (g', .ok changed)) :
    (∀ r ∈ rules, ruleFault? r = none) ∧ h.committed.Fresh rules ∧
      g'.committed.entries = (rules.foldl Snapshot.insert h.committed).entries ∧
      g'.committed.name = h.committed.name ∧ g'.committed.locale = h.committed.locale := by
  obtain ⟨hfaults, rfl⟩ := addRules_eq_ok_iff.mp hadd
  rw [commit, hpending, List.nil_append, Workspace.commitOrder_add] at hcommit
  obtain ⟨rfl, hreport⟩ := Prod.mk.inj hcommit
  have hfresh : h.committed.Fresh rules := by
    refine Snapshot.fresh_of_failures ?_
    rw [report] at hreport
    split at hreport
    · rename_i hfailures
      exact List.isEmpty_iff.mp hfailures
    · cases hreport
  refine ⟨hfaults, hfresh, ?_⟩
  rw [Snapshot.applyAll_add hfresh, Snapshot.publish]
  cases rules with
  | nil => exact ⟨rfl, rfl, rfl⟩
  | cons r rules => exact ⟨rfl, Snapshot.name_foldl_insert (r :: rules)⟩

/-- **The text of a grammar is read exactly if its rules are clear.** Rules are added to a grammar whose name and locale
can be read and whose rules, if it has any, could be added as well, and a commit makes all of the changes. If the rules
are clear, the text is read, with the names of the rules in order and whether they are public; and this is the order in
which they were added, as long as the ids last. If one of them is not clear, the text is not read, unless a reference
closes its own bracket. -/
theorem parse_added (hname : Jsgf.IsGrammarName h.name) (hlocale : Jsgf.IsLocale h.committed.locale)
    (hrules : ∀ e ∈ h.committed.entries, ruleFault? e.rule = none) (hpending : h.pending = [])
    (hadd : h.addRules rules = .ok g) (hcommit : g.commit = (g', .ok changed)) :
    ((∀ e ∈ g'.committed.entries, e.rule.Clear) →
      ∃ doc, Jsgf.Document.parse g'.committed.jsgf = .ok doc ∧ doc.name = h.name ∧ doc.locale = h.committed.locale ∧
        doc.rules.map (fun r => (r.name, r.isPublic)) =
          g'.committed.entries.map fun e => (e.rule.name, e.rule.isPublic)) ∧
      ((∀ e ∈ g'.committed.entries, e.rule.body.Contained) →
        ((∃ doc, Jsgf.Document.parse g'.committed.jsgf = .ok doc) ↔ ∀ e ∈ g'.committed.entries, e.rule.Clear)) ∧
      (h.committed.Consistent → h.committed.nextId.toNat + rules.length < 2 ^ 64 →
        g'.committed.entries.map Entry.rule = h.committed.entries.map Entry.rule ++ rules) := by
  obtain ⟨hfaults, hfresh, hentries, hsameName, hsameLocale⟩ := committed_addRules hpending hadd hcommit
  have hall : ∀ e ∈ g'.committed.entries, ruleFault? e.rule = none := by
    rw [hentries]
    intro e he
    rcases Snapshot.mem_foldl_insert he with hnew | hold
    · exact hfaults e.rule hnew
    · exact hrules e hold
  have hname' : Jsgf.IsGrammarName g'.committed.name := hsameName ▸ hname
  have hlocale' : Jsgf.IsLocale g'.committed.locale := hsameLocale ▸ hlocale
  refine ⟨fun hclear => ?_, Snapshot.parse_iff_clear hname' hlocale' hall, fun hconsistent room => ?_⟩
  · obtain ⟨doc, hdoc, hdocName, hdocLocale, hheads⟩ := Snapshot.parse_of_clear hname' hlocale'
      (fun e he => (ruleFault?_eq_none_iff.mp (hall e he)).2) hclear
    exact ⟨doc, hdoc, hdocName.trans hsameName, hdocLocale.trans hsameLocale, hheads⟩
  · rw [hentries]
    exact Snapshot.rules_foldl_insert hconsistent hfresh room

/-- Clear rules: one refers to a rule of another grammar, and the other has weights. -/
def clearRules : List Rule :=
  [⟨"go", true, .sequence [.token "turn on", .reference ⟨"lamp", some "home.lamps"⟩, .tag "go "]⟩,
   ⟨"lamp", false, .alternatives [.token "big one", .count (.token "small") 0 .indefinite none]
     (some [⟨0x40000000⟩, ⟨0x3F000000⟩])⟩]

theorem clearRules_clear : ∀ r ∈ clearRules, r.Clear := by
  have hgo : Jsgf.IsRuleName "go" := ⟨by decide, List.all_eq_true.mp (by decide)⟩
  have hlamp : Jsgf.IsRuleName "lamp" := ⟨by decide, List.all_eq_true.mp (by decide)⟩
  have hreference : Reference.Clear ⟨"lamp", some "home.lamps"⟩ := List.all_eq_true.mp (by decide)
  have hweights : ∀ w ∈ [(⟨0x40000000⟩ : Single), ⟨0x3F000000⟩], w.signed = false := by decide
  exact List.forall_mem_cons.mpr ⟨⟨hgo, trivial, hreference, trivial, trivial⟩,
    List.forall_mem_singleton.mpr ⟨hlamp, hweights, trivial, fun _ => trivial, trivial⟩⟩

theorem clearRules_parse_added :
    ∃ g g' doc, (Grammar.empty "lights" (some "en") default).addRules clearRules = .ok g ∧
      g.commit = (g', .ok true) ∧ Jsgf.Document.parse g'.committed.jsgf = .ok doc ∧
      doc.rules.map (fun r => (r.name, r.isPublic)) = [("go", true), ("lamp", false)] := by
  have hname : Jsgf.IsGrammarName "lights" := ⟨by decide, List.all_eq_true.mp (by decide +kernel)⟩
  have hlocale : Jsgf.IsLocale (some "en") := by
    rintro l ⟨⟩
    exact ⟨by decide, List.all_eq_true.mp (by decide)⟩
  have hadd := (addRules_eq_ok_iff (g := .empty "lights" (some "en") default)).mpr
    ⟨(by decide +kernel : ∀ r ∈ clearRules, ruleFault? r = none), rfl⟩
  obtain ⟨hread, -, hrules⟩ := parse_added (h := .empty "lights" (some "en") default) hname hlocale nofun rfl hadd rfl
  have hsame := hrules (Snapshot.empty_consistent _ _) (by decide)
  obtain ⟨doc, hdoc, -, -, hheads⟩ := hread fun e he => clearRules_clear _ (by
    have hmem := List.mem_map_of_mem (f := Entry.rule) he
    rwa [hsame] at hmem)
  exact ⟨_, _, doc, hadd, rfl, hdoc, hheads.trans rfl⟩

/-- The rule is added to a grammar and committed, and then the text of the grammar cannot be read. -/
def MakesUnreadable (r : Rule) : Prop :=
  ∃ g g', (Grammar.empty "switch" none default).addRules [r] = .ok g ∧ g.commit = (g', .ok true) ∧
    ∀ doc, Jsgf.Document.parse g'.committed.jsgf ≠ .ok doc

theorem makesUnreadable_of_parse {r : Rule} (hfault : ruleFault? r = none)
    (hparse : (Jsgf.Document.parse ((Snapshot.empty "switch" none).insert r).jsgf).isOk = false) :
    MakesUnreadable r := by
  refine ⟨_, _, addRules_eq_ok_iff.mpr ⟨List.forall_mem_singleton.mpr hfault, rfl⟩, rfl, fun doc hdoc => ?_⟩
  have hfails : (Except.ok doc : Except Jsgf.ParseError Jsgf.Document).isOk = false := hdoc ▸ hparse
  cases hfails

/-- **Rules are taken with which a text is not read any more**: a bar in a name, a blank in a reference, and a weight
that is a negative zero. -/
theorem unclearRules_not_parsed :
    Jsgf.IsGrammarName "switch" ∧ MakesUnreadable ⟨"a|b", true, .token "x"⟩ ∧
      MakesUnreadable ⟨"go", true, .reference ⟨"a b", none⟩⟩ ∧
      MakesUnreadable ⟨"pick", true, .alternatives [.token "x", .token "y"] (some [⟨0x80000000⟩, ⟨0x3F800000⟩])⟩ :=
  ⟨⟨by decide, List.all_eq_true.mp (by decide +kernel)⟩, makesUnreadable_of_parse (by decide) (by decide +kernel),
    makesUnreadable_of_parse (by decide) (by decide +kernel), makesUnreadable_of_parse (by decide) (by decide +kernel)⟩

end Grammar

end SpeechGrammar
