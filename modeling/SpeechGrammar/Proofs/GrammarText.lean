import SpeechGrammar.Grammar.Snapshot
import SpeechGrammar.Jsgf.Document
import SpeechGrammar.Proofs.Splicing

/-!
# Reading grammar texts back

The header, the declaration and the rules of a grammar text are read back one after the other, each up to the end of
its line. A state whose names, locale and bodies can be read back is read back from its text
(**`Snapshot.parse_jsgf`**). Every document has such names and such a locale, and its bodies are normal
(**`Document.normal_of_parse`**).
-/

namespace SpeechGrammar

/-! ## Blank characters -/

namespace Text

/-- The codes of the blank characters. -/
def blankCodes : List Nat :=
  [9, 10, 11, 12, 13, 0x20, 0x85, 0xA0, 0x1680, 0x2000, 0x2001, 0x2002, 0x2003, 0x2004, 0x2005, 0x2006, 0x2007, 0x2008,
   0x2009, 0x200A, 0x2028, 0x2029, 0x202F, 0x205F, 0x3000]

theorem mem_blankCodes {c : Char} (h : isBlank c = true) : c.toNat ∈ blankCodes := by
  simp only [isBlank, Bool.or_eq_true, Bool.and_eq_true, decide_eq_true_eq, beq_iff_eq] at h
  simp only [blankCodes, List.mem_cons, List.not_mem_nil, or_false]
  omega

/-- No letter or number is blank. -/
theorem isBlank_of_isAlphanumeric {c : Char} (h : isAlphanumeric c = true) : isBlank c = false := by
  have hcodes : ∀ n ∈ blankCodes, isAlphanumeric (Char.ofNat n) = false := by decide +kernel
  rw [← Bool.not_eq_true]
  intro hblank
  have hnot := hcodes _ (mem_blankCodes hblank)
  rw [Char.ofNat_toNat, h] at hnot
  cases hnot

end Text

/-! ## What can be written and read -/

namespace Jsgf

/-- A word that can stand in the header. -/
def IsHeaderWord (cs : List Char) : Prop := cs ≠ [] ∧ ∀ c ∈ cs, isHeaderChar c = true

/-- A locale that can stand in the header. -/
def IsLocale (locale : Option String) : Prop := ∀ l, locale = some l → IsHeaderWord l.toList

/-- A name that a grammar text can declare. -/
def IsGrammarName (name : String) : Prop := name.toList ≠ [] ∧ ∀ c ∈ name.toList, isGrammarNameChar c = true

/-- A name that can be given to a rule. -/
def IsRuleName (name : String) : Prop := name.toList ≠ [] ∧ ∀ c ∈ name.toList, isRuleNameChar c = true

end Jsgf

/-- The rule is read back from its text. -/
structure Rule.Readable (r : Rule) : Prop where
  name : Jsgf.IsRuleName r.name
  body : r.body.Readable

/-- What is read where the rule is written. -/
def Rule.reread (r : Rule) : Rule := { r with body := r.body.reread }

/-- The state is read back from its text. -/
structure Snapshot.Readable (s : Snapshot) : Prop where
  name : Jsgf.IsGrammarName s.name
  locale : Jsgf.IsLocale s.locale
  rules : ∀ e ∈ s.entries, e.rule.Readable

/-- What holds of rules that come out of a text. -/
structure Rule.Normal (r : Rule) : Prop where
  name : Jsgf.IsRuleName r.name
  body : r.body.Normal

/-- What holds of documents that come out of a text. -/
structure Jsgf.Document.Normal (doc : Document) : Prop where
  name : IsGrammarName doc.name
  locale : IsLocale doc.locale
  rules : ∀ r ∈ doc.rules, r.Normal

namespace Jsgf.Reader

variable {s rest : List Char} {locale : Option String} {name : String}

/-! ## Header -/

theorem semicolon_cons (rest : List Char) : semicolon (';' :: rest) = .ok ((), rest) := cut_of_ok (char_cons ';' rest)

/-- Before anything else than a space or a tabulator there is no layout in the header. -/
theorem spaces_stop (h : Stops Text.isBlank s) : spaces s = .ok ((), s) := by
  refine skip_append [] (List.forall_mem_nil _) fun c cs hs => ?_
  have hblank := h c cs hs
  rw [Bool.or_eq_false_iff, beq_eq_false_iff_ne, beq_eq_false_iff_ne]
  constructor <;> rintro rfl <;> cases hblank

theorem spaces_space (h : Stops Text.isBlank s) : spaces (' ' :: s) = .ok ((), s) := spaces_stop h

/-- Spaces end where a word of the header starts. -/
theorem spaces_word {w : List Char} (hw : IsHeaderWord w) (rest : List Char) :
    spaces (' ' :: (w ++ rest)) = .ok ((), w ++ rest) := by
  refine spaces_space ?_
  obtain ⟨d, ds, rfl⟩ := List.exists_cons_of_ne_nil hw.1
  have hd := hw.2 d List.mem_cons_self
  simp only [isHeaderChar, Bool.and_eq_true, Bool.not_eq_true'] at hd
  exact stops_cons hd.1 (ds ++ rest)

theorem headerWord_append {w : List Char} (hw : IsHeaderWord w) (hrest : Stops isHeaderChar rest) :
    headerWord (w ++ rest) = .ok (String.ofList w, rest) := by
  rw [headerWord, map_of_ok (run_append hw.2 hw.1 hrest)]

/-- The words of a header after the version. -/
def headerWords : Option String → List Char
  | none => []
  | some l => ' ' :: ("UTF-8".toList ++ ' ' :: l.toList)

theorem printHeader_eq (locale : Option String) (rest : List Char) :
    Snapshot.printHeader locale ++ rest =
      "#JSGF".toList ++ ' ' :: ("V1.0".toList ++ (headerWords locale ++ ';' :: '\n' :: rest)) := by
  unfold Snapshot.printHeader headerWords
  cases locale <;> simp

theorem headerWords_print (h : IsLocale locale) (rest : List Char) :
    Stops isHeaderChar (headerWords locale ++ ';' :: rest) ∧ ∃ words,
      atMost (spaces *> headerWord) 2 (headerWords locale ++ ';' :: rest) = .ok (words, ';' :: rest) ∧
        words[1]? = locale := by
  have hend : Stops isHeaderChar (';' :: rest) := stops_cons (by decide) rest
  cases locale with
  | none =>
    -- the semicolon is not a word
    refine ⟨hend, [], again_of_refuses ?_, rfl⟩
    exact refuses_seqRight_of_ok (spaces_stop (stops_cons (by decide) rest)) (refuses_run hend).map
  | some l =>
    have hstops : Stops isHeaderChar (' ' :: (l.toList ++ ';' :: rest)) := stops_cons (by decide) _
    have hword : IsHeaderWord "UTF-8".toList := ⟨by decide, List.all_eq_true.mp (by decide)⟩
    have hencoding := (seqRight_of_ok (spaces_word hword _)).trans (headerWord_append hword hstops)
    have hlocale := (seqRight_of_ok (spaces_word (h l rfl) _)).trans (headerWord_append (h l rfl) hend)
    rw [headerWords, List.cons_append, List.append_assoc, List.cons_append]
    refine ⟨stops_cons (by decide) _, _, again_of_ok hencoding (again_of_ok hlocale rfl), ?_⟩
    exact congrArg some String.ofList_toList

/-- The header is read back, up to the end of its line. -/
theorem header_print (h : IsLocale locale) (rest : List Char) :
    header (Snapshot.printHeader locale ++ rest) = .ok (locale, '\n' :: rest) := by
  obtain ⟨hstops, words, hwords, hlocale⟩ := headerWords_print h ('\n' :: rest)
  have hlayout (t : List Char) : layout ("#JSGF".toList ++ t) = .ok ((), "#JSGF".toList ++ t) :=
    layout_solid (solid_cons (by decide) (by decide) _)
  have hmark (t : List Char) :
      expecting .headerMark (cut (literal "#JSGF".toList)) ("#JSGF".toList ++ t) = .ok ((), t) :=
    expecting_of_ok (cut_of_ok (literal_append _ t))
  have hversion :
      (spaces *> cut headerWord *> pure ()) (' ' :: ("V1.0".toList ++ (headerWords locale ++ ';' :: '\n' :: rest))) =
        .ok ((), headerWords locale ++ ';' :: '\n' :: rest) := by
    have hword : IsHeaderWord "V1.0".toList := ⟨by decide, List.all_eq_true.mp (by decide)⟩
    have hread := (seqRight_of_ok (spaces_word hword _)).trans (cut_of_ok (headerWord_append hword hstops))
    rw [seqRight_of_ok hread, pure_eq]
  have hspaces : spaces (';' :: '\n' :: rest) = .ok ((), ';' :: '\n' :: rest) := spaces_stop (stops_cons (by decide) _)
  rw [printHeader_eq, header, bind_of_ok (hlayout _), bind_of_ok (hmark _), bind_of_ok (expecting_of_ok hversion),
    bind_of_ok hwords, bind_of_ok hspaces, bind_of_ok (semicolon_cons _), pure_eq, hlocale]

/-! ## Declaration -/

theorem isBlank_newline : ∀ c ∈ ['\n'], Text.isBlank c = true := List.forall_mem_singleton.mpr (by decide)

theorem solid_grammarName (h : IsGrammarName name) (rest : List Char) : Solid (name.toList ++ rest) := by
  obtain ⟨d, ds, hname⟩ := List.exists_cons_of_ne_nil h.1
  have hd := h.2 d (by simp [hname])
  have hother : (['_', '.', '-', '$'].all fun c => !Text.isBlank c) = true := by decide
  rw [hname]
  refine solid_cons ?_ ?_ (ds ++ rest)
  · rw [isGrammarNameChar, Bool.or_eq_true, List.contains_iff_mem] at hd
    rcases hd with hd | hd
    · exact Text.isBlank_of_isAlphanumeric hd
    · simpa using List.all_eq_true.mp hother d hd
  · rintro rfl
    exact absurd hd (by decide +kernel)

/-- The declaration is read back, from the end of the line before it up to the end of its own. -/
theorem declaration_print (h : IsGrammarName name) (rest : List Char) :
    declaration ('\n' :: ("grammar".toList ++ ' ' :: (name.toList ++ ';' :: rest))) = .ok (name, rest) := by
  have hlayout (t : List Char) : layout ('\n' :: ("grammar".toList ++ t)) = .ok ((), "grammar".toList ++ t) :=
    layout_append _ isBlank_newline (solid_cons (by decide) (by decide) _)
  have hmark (t : List Char) :
      expecting .declaration (cut (literal "grammar".toList)) ("grammar".toList ++ t) = .ok ((), t) :=
    expecting_of_ok (cut_of_ok (literal_append _ t))
  have hname : expecting .grammarName (cut (run isGrammarNameChar)) (name.toList ++ ';' :: rest) =
      .ok (name.toList, ';' :: rest) :=
    expecting_of_ok (cut_of_ok (run_append h.2 h.1 (stops_cons (by decide +kernel) rest)))
  have hend : layout (';' :: rest) = .ok ((), ';' :: rest) := layout_solid (solid_cons (by decide) (by decide) rest)
  rw [declaration, bind_of_ok (hlayout _), bind_of_ok (hmark _), bind_of_ok (layout_space (solid_grammarName h _)),
    bind_of_ok hname, bind_of_ok hend, bind_of_ok (semicolon_cons rest), pure_eq, String.ofList_toList]

/-! ## Rules -/

/-- The bracket before the name of a rule. Only a word before it shows that there must be one. -/
def opening (isPublic : Option Bool) : Reader Unit := if isPublic.isSome then cut (char '<') else char '<'

/-- The definition of a rule from its name on. -/
def definitionFromName (isPublic : Option Bool) : Reader Rule := do
  let name ← expecting .ruleName (cut (run isRuleNameChar))
  cut (char '>')
  layout
  cut (char '=')
  let body ← expecting .expansion (cut expansion)
  expecting .semicolon (layout *> semicolon)
  pure ⟨String.ofList name, isPublic.getD false, body⟩

theorem ruleDefinition_eq :
    ruleDefinition = (do
      layout
      let isPublic ← optionally visibility
      layout
      opening isPublic
      definitionFromName isPublic) := by
  unfold ruleDefinition
  refine congrArg (layout >>= ·) (funext fun _ => ?_)
  refine congrArg (optionally visibility >>= ·) (funext fun isPublic => ?_)
  refine congrArg (layout >>= ·) (funext fun _ => ?_)
  cases isPublic <;> rfl

theorem takes_ruleDefinition : Takes ruleDefinition 1 := by
  have hword (cs : List Char) (b : Bool) : Takes (literal cs *> pure b) 0 :=
    ((takes_literal cs).seqRight (takes_pure b)).weaken (Nat.zero_le _)
  have hvisibility : Takes visibility 0 := (hword _ _).orElse (hword _ _)
  have hopening (isPublic : Option Bool) : Takes (opening isPublic) 1 := by
    unfold opening
    split
    · exact (takes_char '<').cut
    · exact takes_char '<'
  have hsemicolon : Takes (layout *> semicolon) 1 := takes_layout.seqRight (takes_char ';').cut
  have hdefinition (isPublic : Option Bool) : Takes (definitionFromName isPublic) 0 := by
    refine Takes.weaken (takes_run.cut.expecting.bind fun _ => (takes_char '>').cut.bind fun _ => takes_layout.bind
      fun _ => (takes_char '=').cut.bind fun _ => takes_expansion.cut.expecting.bind fun _ =>
        hsemicolon.expecting.bind fun _ => takes_pure _) ?_
    exact Nat.zero_le _
  rw [ruleDefinition_eq]
  exact takes_layout.bind fun _ => hvisibility.optionally.bind fun _ => takes_layout.bind fun _ =>
    (hopening _).bind fun _ => hdefinition _

variable {r : Rule} {xs : List Component} {ws : List Char}

theorem ruleName_print (h : IsRuleName r.name) (rest : List Char) :
    expecting .ruleName (cut (run isRuleNameChar)) (r.name.toList ++ '>' :: rest) = .ok (r.name.toList, '>' :: rest) :=
  expecting_of_ok (cut_of_ok (run_append h.2 h.1 (stops_cons (by decide) rest)))

theorem definitionFromName_print (hname : IsRuleName r.name) (hbody : Legible r.body xs) (isPublic : Option Bool)
    (rest : List Char) :
    definitionFromName isPublic (r.name.toList ++ '>' :: ' ' :: '=' :: ' ' :: (r.body.print ++ ';' :: rest)) =
      .ok (⟨r.name, isPublic.getD false, oneOrSequence xs⟩, rest) := by
  have hlayout (t : List Char) : layout (' ' :: '=' :: t) = .ok ((), '=' :: t) :=
    layout_space (solid_cons (by decide) (by decide) t)
  have hbody := (hbody.expansion (closes_cons (d := ';') (by decide) rest)).2
  have hend : layout (';' :: rest) = .ok ((), ';' :: rest) := layout_solid (solid_cons (by decide) (by decide) rest)
  rw [definitionFromName, bind_of_ok (ruleName_print hname _), bind_of_ok (cut_of_ok (char_cons '>' _)),
    bind_of_ok (hlayout _),
    bind_of_ok (cut_of_ok (char_cons '=' _)), bind_of_ok (expecting_of_ok (cut_of_ok hbody)),
    bind_of_ok (expecting_of_ok ((seqRight_of_ok hend).trans (semicolon_cons rest))), pure_eq, String.ofList_toList]

theorem opening_print (isPublic : Option Bool) (rest : List Char) :
    opening isPublic ('<' :: rest) = .ok ((), rest) := by
  cases isPublic
  · exact char_cons '<' rest
  · exact cut_of_ok (char_cons '<' rest)

/-- The text of a rule without the word before it. -/
def definitionText (r : Rule) (rest : List Char) : List Char :=
  '<' :: (r.name.toList ++ '>' :: ' ' :: '=' :: ' ' :: (r.body.print ++ ';' :: rest))

theorem print_append (r : Rule) (rest : List Char) :
    r.print ++ rest =
      if r.isPublic then "public".toList ++ ' ' :: definitionText r rest else definitionText r rest := by
  unfold Rule.print definitionText
  cases r.isPublic <;> simp

theorem solid_definitionText (r : Rule) (rest : List Char) : Solid (definitionText r rest) :=
  solid_cons (by decide) (by decide) _

theorem solid_print (r : Rule) (rest : List Char) : Solid (r.print ++ rest) := by
  rw [print_append]
  split
  · exact solid_cons (by decide) (by decide) _
  · exact solid_definitionText r rest

theorem refuses_visibility (h : ¬ "public".toList <+: s) (h' : ¬ "private".toList <+: s) : Refuses visibility s :=
  (refuses_literal h).seqRight.orElse (refuses_literal h').seqRight

/-- The word before the rule is read back. -/
theorem visibility_print (r : Rule) (rest : List Char) :
    ∃ isPublic t, optionally visibility (r.print ++ rest) = .ok (isPublic, t) ∧ isPublic.getD false = r.isPublic ∧
      layout t = .ok ((), definitionText r rest) := by
  have hsolid := solid_definitionText r rest
  rw [print_append]
  split
  · rename_i hpublic
    have hword : visibility ("public".toList ++ ' ' :: definitionText r rest) =
        .ok (true, ' ' :: definitionText r rest) :=
      orElse_of_ok ((seqRight_of_ok (literal_append _ _)).trans rfl)
    exact ⟨some true, _, optionally_of_ok hword, hpublic.symm, layout_space hsolid⟩
  · rename_i hpublic
    have hnone : Refuses visibility (definitionText r rest) :=
      refuses_visibility (by simp [definitionText]) (by simp [definitionText])
    exact ⟨none, _, optionally_of_refuses hnone, by simpa using hpublic, layout_solid hsolid⟩

/-- Up to the name of the rule its definition is read, whatever the name is. There may be blank characters before it. -/
theorem ruleDefinition_start (r : Rule) (hws : ∀ c ∈ ws, Text.isBlank c = true) (rest : List Char) :
    ∃ isPublic, isPublic.getD false = r.isPublic ∧ ruleDefinition (ws ++ (r.print ++ rest)) =
      definitionFromName isPublic (r.name.toList ++ '>' :: ' ' :: '=' :: ' ' :: (r.body.print ++ ';' :: rest)) := by
  obtain ⟨isPublic, t, hvisibility, hpublic, hlayout⟩ := visibility_print r rest
  refine ⟨isPublic, hpublic, ?_⟩
  rw [ruleDefinition_eq, bind_of_ok (layout_append ws hws (solid_print r rest)), bind_of_ok hvisibility,
    bind_of_ok hlayout, definitionText, bind_of_ok (opening_print isPublic _)]

/-- Where the first rule is written, the second is read, whatever follows. There may be blank characters before it. -/
def ReadsRule (r r' : Rule) : Prop :=
  ∀ ws, (∀ c ∈ ws, Text.isBlank c = true) → ∀ rest, ruleDefinition (ws ++ (r.print ++ rest)) = .ok (r', rest)

/-- A rule with a legible body is read back, with what is read of its body. -/
theorem ruleDefinition_print (hname : IsRuleName r.name) (hbody : Legible r.body xs) :
    ReadsRule r { r with body := oneOrSequence xs } := by
  intro ws hws rest
  obtain ⟨isPublic, hpublic, hstart⟩ := ruleDefinition_start r hws rest
  rw [hstart, definitionFromName_print hname hbody, hpublic]

/-- After the last rule there is no other one. -/
theorem refuses_ruleDefinition (hlayout : layout s = .ok ((), [])) : Refuses ruleDefinition s := by
  have hnone : Refuses visibility [] := refuses_visibility (by simp) (by simp)
  rw [ruleDefinition_eq]
  refine refuses_bind_of_ok hlayout (refuses_bind_of_ok (optionally_of_refuses hnone) ?_)
  refine refuses_bind_of_ok (layout_solid solid_nil) (Refuses.bind ?_)
  exact refuses_char (by simp)

/-- Before a rule, and at the end of the text, there is no import. -/
theorem refuses_importStatement (ws : List Char) (hws : ∀ c ∈ ws, Text.isBlank c = true) (hsolid : Solid s)
    (himport : ¬ "import".toList <+: s) : Refuses importStatement (ws ++ s) :=
  refuses_bind_of_ok (layout_append ws hws hsolid) (refuses_literal himport).bind

/-! ## Whole texts -/

/-- Rules, each on a line of its own. -/
def rulesText (rules : List Rule) : List Char := rules.flatMap fun r => '\n' :: r.print

theorem many_importStatement_print (rules : List Rule) :
    many importStatement ('\n' :: (rulesText rules ++ ['\n'])) = .ok ([], '\n' :: (rulesText rules ++ ['\n'])) := by
  have hblank : ∀ c ∈ ['\n', '\n'], Text.isBlank c = true := List.forall_mem_cons.mpr ⟨by decide, isBlank_newline⟩
  refine manyWithin_of_chain (.nil _) ?_ (Nat.zero_le _)
  cases rules with
  | nil => exact refuses_importStatement ['\n', '\n'] hblank solid_nil (by simp)
  | cons r rules =>
    have htext : '\n' :: (rulesText (r :: rules) ++ ['\n']) =
        ['\n', '\n'] ++ (r.print ++ (rulesText rules ++ ['\n'])) := by simp [rulesText]
    rw [htext]
    refine refuses_importStatement _ hblank (solid_print r _) ?_
    rw [print_append, definitionText]
    split <;> simp

theorem isBlank_append_newline (hws : ∀ c ∈ ws, Text.isBlank c = true) : ∀ c ∈ ws ++ ['\n'], Text.isBlank c = true :=
  List.forall_mem_append.mpr ⟨hws, isBlank_newline⟩

/-- The line feed before a rule belongs to the blank characters before it. -/
theorem rulesText_cons (ws : List Char) (r : Rule) (rules : List Rule) (rest : List Char) :
    ws ++ (rulesText (r :: rules) ++ rest) = ws ++ ['\n'] ++ (r.print ++ (rulesText rules ++ rest)) := by
  simp [rulesText]

variable {rules rules' : List Rule}

/-- The rules are read back one after the other. -/
theorem chain_rulesText (ws : List Char) (hws : ∀ c ∈ ws, Text.isBlank c = true)
    (h : List.Forall₂ ReadsRule rules rules') :
    ∃ ws', (∀ c ∈ ws', Text.isBlank c = true) ∧
      Chain ruleDefinition (ws ++ (rulesText rules ++ ['\n'])) rules' ws' := by
  induction h generalizing ws with
  | nil => exact ⟨ws ++ ['\n'], isBlank_append_newline hws, .nil _⟩
  | cons hr _ ih =>
    obtain ⟨ws', hws', hchain⟩ := ih [] (List.forall_mem_nil _)
    exact ⟨ws', hws', rulesText_cons ws _ _ _ ▸ .cons (hr _ (isBlank_append_newline hws) _) hchain⟩

/-- The rules are read back, and what is left is blank. -/
theorem many_ruleDefinition_print (h : List.Forall₂ ReadsRule rules rules') :
    ∃ ws, (∀ c ∈ ws, Text.isBlank c = true) ∧
      many ruleDefinition ('\n' :: (rulesText rules ++ ['\n'])) = .ok (rules', ws) := by
  obtain ⟨ws, hws, hchain⟩ := chain_rulesText _ isBlank_newline h
  have hlayout : layout ws = .ok ((), []) := by simpa using layout_append ws hws solid_nil
  exact ⟨ws, hws, many_of_chain takes_ruleDefinition hchain (refuses_ruleDefinition hlayout)⟩

end Jsgf.Reader

namespace Snapshot

open Jsgf.Reader

variable {s : Snapshot}

theorem print_eq (s : Snapshot) :
    s.print = printHeader s.locale ++
      ("grammar".toList ++ ' ' :: (s.name.toList ++ ';' :: '\n' ::
        (rulesText (s.entries.map Entry.rule) ++ ['\n']))) := by
  unfold print rulesText
  simp [List.flatMap_map]

/-- A text is read if its rules are. -/
theorem parse_of_readsRule {rules : List Rule} (hname : Jsgf.IsGrammarName s.name) (hlocale : Jsgf.IsLocale s.locale)
    (h : List.Forall₂ ReadsRule (s.entries.map Entry.rule) rules) :
    Jsgf.Document.parse s.jsgf = .ok ⟨s.name, s.locale, [], rules⟩ := by
  obtain ⟨ws, hws, hmany⟩ := many_ruleDefinition_print h
  have hlayout : layout ws = .ok ((), []) := by simpa using layout_append ws hws solid_nil
  have hend : atEnd [] = .ok ((), []) := rfl
  have hread : document s.print = .ok (⟨s.name, s.locale, [], rules⟩, []) := by
    rw [print_eq, document, bind_of_ok (header_print hlocale _), bind_of_ok (declaration_print hname _),
      bind_of_ok (many_importStatement_print _), bind_of_ok hmany, bind_of_ok hlayout, bind_of_ok hend, pure_eq]
  simp only [Jsgf.Document.parse, jsgf, String.toList_ofList, hread]

/-- **A state is read back from its text**, each body as it is read where it is written. -/
theorem parse_jsgf (h : s.Readable) :
    Jsgf.Document.parse s.jsgf = .ok ⟨s.name, s.locale, [], s.entries.map fun e => e.rule.reread⟩ := by
  refine parse_of_readsRule h.name h.locale ?_
  rw [List.forall₂_map_left_iff, List.forall₂_map_right_iff, List.forall₂_same]
  exact fun e he => ruleDefinition_print (h.rules e he).name (legible _ (h.rules e he).body)

end Snapshot

/-! ## What texts give -/

namespace Jsgf

namespace Reader

theorem yields_header : Yields header IsLocale := by
  have hword : Yields headerWord fun w => w.toList ≠ [] ∧ ∀ c ∈ w.toList, isHeaderChar c = true :=
    yields_run.map fun cs hcs => by simpa using hcs
  refine (yields_true _).bind fun _ _ => (yields_true _).bind fun _ _ => (yields_true _).bind fun _ _ => ?_
  refine (((yields_true _).bind fun _ _ => hword).atMost 2).bind fun words hwords => ?_
  refine (yields_true _).bind fun _ _ => (yields_true _).bind fun _ _ => yields_pure fun l hl => ?_
  exact hwords l (List.mem_of_getElem? hl)

theorem yields_declaration : Yields declaration IsGrammarName := by
  refine (yields_true _).bind fun _ _ => (yields_true _).bind fun _ _ => (yields_true _).bind fun _ _ => ?_
  refine yields_run.cut.expecting.bind fun name hname => ?_
  refine (yields_true _).bind fun _ _ => (yields_true _).bind fun _ _ => ?_
  exact yields_pure (by simpa [IsGrammarName] using hname)

theorem yields_ruleDefinition : Yields ruleDefinition Rule.Normal := by
  have hbody : Yields expansion Component.Normal := fun s _ _ h => yields_expansionWithin s.length h
  rw [ruleDefinition_eq]
  refine (yields_true _).bind fun _ _ => (yields_true _).bind fun isPublic _ => (yields_true _).bind fun _ _ => ?_
  refine (yields_true _).bind fun _ _ => yields_run.cut.expecting.bind fun name hname => ?_
  refine (yields_true _).bind fun _ _ => (yields_true _).bind fun _ _ => (yields_true _).bind fun _ _ => ?_
  refine hbody.cut.expecting.bind fun body hbody => (yields_true _).bind fun _ _ => yields_pure ⟨?_, hbody⟩
  simpa [IsRuleName] using hname

theorem yields_document : Yields document Document.Normal :=
  yields_header.bind fun _ hlocale => yields_declaration.bind fun _ hname => (yields_true _).bind fun _ _ =>
    yields_ruleDefinition.many.bind fun _ hrules => (yields_true _).bind fun _ _ => (yields_true _).bind fun _ _ =>
      yields_pure ⟨hname, hlocale, hrules⟩

end Reader

/-- **What a text gives is normal.** -/
theorem Document.normal_of_parse {source : String} {doc : Document} (h : Document.parse source = .ok doc) :
    doc.Normal := by
  unfold Document.parse at h
  split at h
  · rename_i rest hread
    cases h
    exact Reader.yields_document hread
  · cases h

end Jsgf

end SpeechGrammar
