import SpeechGrammar.Proofs.GrammarText
import SpeechGrammar.Proofs.WrittenForms

/-!
# What is read is written

Where a reader succeeds, what it gives is written at the front of the text, in the form that the reader is for, and
what it leaves follows (`Reader.ReadsOnly`). Every reader of a part of an expansion keeps this of the reader of the
expansions within it, so it holds of expansions nested to any depth (**`Reader.written_expansionWithin`**), and a text
that is read as a document is the text of this document (**`Document.written_of_parse`**).
-/

namespace SpeechGrammar.Jsgf

namespace Reader

variable {α : Type} {p : Reader α} {s t rest cs : List Char} {a : α} {as : List α} {accepts : Char → Bool}

/-! ## Readers that succeeded -/

theorem eq_of_literal {x : Unit} (h : literal cs s = .ok (x, t)) : s = cs ++ t := by
  unfold literal at h
  split at h
  · rename_i hprefix
    cases h
    exact (List.isPrefixOf?_eq_some_iff_append_eq.mp hprefix).symm
  · cases h

theorem eq_of_char {c : Char} {x : Unit} (h : char c s = .ok (x, t)) : s = c :: t := eq_of_literal h

theorem stops_dropWhile (accepts : Char → Bool) (s : List Char) : Stops accepts (s.dropWhile accepts) := by
  intro c cs hcs
  have hnot := List.dropWhile_get_zero_not accepts s (by simp [hcs])
  simpa [hcs] using hnot

theorem written_run (h : run accepts s = .ok (cs, t)) : Written.Run accepts s cs t := by
  unfold run at h
  split at h
  · cases h
  · rename_i hne
    cases h
    exact ⟨List.takeWhile_append_dropWhile.symm, by simpa using hne, fun c hc => List.mem_takeWhile_imp hc,
      stops_dropWhile accepts s⟩

theorem chain_of_manyWithin {bound : List Char} (h : manyWithin p bound s = .ok (as, t)) : Chain p s as t := by
  induction bound generalizing s as with
  | nil =>
    rcases ok_of_again h with heq | ⟨a, u, as, rest, ha, has, heq⟩ <;> cases heq
    · exact .nil t
    · cases has
      exact .cons ha (.nil t)
  | cons c bound ih =>
    rcases ok_of_again h with heq | ⟨a, u, as, rest, ha, has, heq⟩ <;> cases heq
    · exact .nil t
    · exact .cons ha (ih has)

theorem chain_of_many (h : many p s = .ok (as, t)) : Chain p s as t := chain_of_manyWithin h

theorem chain_of_atLeastOnce (h : atLeastOnce p s = .ok (as, t)) : as ≠ [] ∧ Chain p s as t := by
  obtain ⟨a, u, ha, h⟩ := exists_of_bind h
  obtain ⟨bs, v, hbs, h⟩ := exists_of_bind h
  cases h
  exact ⟨nofun, .cons ha (chain_of_many hbs)⟩

theorem chain_of_atMost {n : Nat} (h : atMost p n s = .ok (as, t)) : as.length ≤ n ∧ Chain p s as t := by
  induction n generalizing s as with
  | zero =>
    cases h
    exact ⟨Nat.le_refl 0, .nil t⟩
  | succ n ih =>
    rcases ok_of_again h with heq | ⟨a, u, as, rest, ha, has, heq⟩ <;> cases heq
    · exact ⟨Nat.zero_le _, .nil t⟩
    · obtain ⟨hlength, hchain⟩ := ih has
      exact ⟨Nat.succ_le_succ hlength, .cons ha hchain⟩

/-- What the reader reads is written in this form. -/
def ReadsOnly (p : Reader α) (form : List Char → α → List Char → Prop) : Prop :=
  ∀ ⦃s a t⦄, p s = .ok (a, t) → form s a t

theorem several_of_chain {form : List Char → α → List Char → Prop} (hp : ReadsOnly p form) (h : Chain p s as t) :
    Written.Several form s as t := by
  induction h with
  | nil s => exact .nil s
  | cons ha _ ih => exact .cons (hp ha) ih

/-! ## Layout -/

theorem layout_of_blanks (hcs : ∀ c ∈ cs, Text.isBlank c = true) (rest : List Char) :
    Written.Layout (cs ++ rest) rest := by
  induction cs with
  | nil => exact .none rest
  | cons c cs ih =>
    rw [List.forall_mem_cons] at hcs
    exact .blank hcs.1 (ih hcs.2)

theorem lineEnding_iff : startsLineEnding s = true ↔ Written.LineEnding s := by
  constructor
  · intro h
    unfold startsLineEnding at h
    split at h
    · exact .returnAndFeed _
    · exact .feed _
    · exact .text
    · cases h
  · rintro (_ | _ | _) <;> rfl

theorem written_lineComment {x : Unit} (h : lineComment s = .ok (x, t)) : Written.Layout s t := by
  obtain ⟨_, u, hslashes, h⟩ := exists_of_bind h
  obtain ⟨_, v, hskip, h⟩ := exists_of_bind h
  obtain rfl := eq_of_literal hslashes
  cases hskip
  split at h
  · rename_i hends
    cases h
    have hline : ∀ c ∈ u.takeWhile fun c => c != '\r' && c != '\n', c ≠ '\r' ∧ c ≠ '\n' :=
      fun c hc => by simpa using List.mem_takeWhile_imp hc
    have hlayout := Written.Layout.lineComment hline (lineEnding_iff.mp hends) (.none _)
    rwa [List.takeWhile_append_dropWhile] at hlayout
  · cases h

theorem exists_of_afterClosing (h : afterClosing s = some t) :
    ∃ cs, s = cs ++ '*' :: '/' :: t ∧ ¬ ['*', '/'] <:+: cs := by
  induction s using afterClosing.induct with
  | case1 => cases h
  | case2 rest =>
    cases h
    exact ⟨[], rfl, by simp⟩
  | case3 c cs hc ih =>
    rw [afterClosing] at h
    · obtain ⟨ds, rfl, hds⟩ := ih h
      refine ⟨c :: ds, rfl, fun hinfix => ?_⟩
      rcases List.infix_cons_iff.mp hinfix with ⟨es, hes⟩ | hinfix
      · obtain ⟨rfl, rfl⟩ := List.cons.inj hes
        exact hc _ rfl rfl
      · exact hds hinfix
    · exact hc

theorem written_blockComment {x : Unit} (h : blockComment s = .ok (x, t)) : Written.Layout s t := by
  obtain ⟨_, u, hopen, hrest⟩ := exists_of_bind h
  rw [eq_of_literal hopen]
  split at hrest
  · rename_i hclosing
    cases hrest
    obtain ⟨cs, rfl, hcs⟩ := exists_of_afterClosing hclosing
    exact .blockComment hcs (.none t)
  · cases hrest

theorem written_layout {x : Unit} (h : layout s = .ok (x, t)) : Written.Layout s t := by
  obtain ⟨parts, u, hparts, hrest⟩ := exists_of_bind h
  cases hrest
  have hchain := chain_of_many hparts
  clear h hparts
  induction hchain with
  | nil s => exact .none s
  | cons hpart _ ih =>
    refine Written.Layout.trans ?_ ih
    rcases ok_of_orElse hpart with hblanks | hcomment
    · obtain ⟨cs, u, hrun, h⟩ := exists_of_bind hblanks
      cases h
      obtain ⟨rfl, -, hcs, -⟩ := written_run hrun
      exact layout_of_blanks hcs _
    · rcases ok_of_orElse hcomment with hline | hblock
      · exact written_lineComment hline
      · exact written_blockComment hblock

/-! ## Expansions -/

section

variable {inner : Reader Component} {c : Component} {w : Option Single} {b : Option Single × Component}
  {bs : List (Option Single × Component)} {xs : List Component}

theorem escaped_of_closedBy {close : Char} {expected : List Expectation}
    (h : closedBy close expected s = .ok (cs, t)) : Written.Escaped close s cs t := by
  unfold closedBy at h
  split at h
  · rename_i hread
    cases h
    exact escaped_of_unescape hread
  · cases h
  · cases h

/-- What is enclosed is an expansion, with layout before the closing character. -/
theorem written_enclosed (hinner : ReadsOnly inner Written.Expansion) {opening closing : Char}
    (h : enclosed opening closing inner s = .ok (c, rest)) :
    ∃ t u, s = opening :: t ∧ Written.Expansion t c u ∧ Written.Layout u (closing :: rest) := by
  obtain ⟨_, t, hopen, h⟩ := exists_of_bind h
  obtain ⟨d, u, hd, h⟩ := exists_of_bind h
  obtain ⟨_, v, hlayout, h⟩ := exists_of_bind h
  obtain ⟨_, r, hclose, h⟩ := exists_of_bind h
  cases h
  have hlayout := written_layout hlayout
  rw [eq_of_char (ok_of_cut hclose)] at hlayout
  exact ⟨t, u, eq_of_char hopen, hinner (ok_of_cut hd), hlayout⟩

theorem written_reference : ReadsOnly reference Written.Unit := by
  intro s c rest h
  obtain ⟨_, t, hopen, h⟩ := exists_of_bind (ok_of_expecting h)
  obtain ⟨cs, u, hrun, h⟩ := exists_of_bind h
  obtain ⟨_, v, hclose, h⟩ := exists_of_bind h
  cases h
  obtain rfl := eq_of_char hopen
  obtain rfl := eq_of_char (ok_of_cut hclose)
  exact .name (written_run (ok_of_cut hrun)) (namedComponent_eq_iff.mp rfl)

theorem written_tag : ReadsOnly tag Written.Unit := by
  intro s c rest h
  obtain ⟨_, t, hopen, h⟩ := exists_of_bind h
  obtain ⟨cs, u, hclosed, h⟩ := exists_of_bind h
  cases h
  obtain rfl := eq_of_char hopen
  exact .tag (escaped_of_closedBy hclosed)

theorem written_quoted : ReadsOnly quoted Written.Unit := by
  intro s c rest h
  obtain ⟨_, t, hopen, h⟩ := exists_of_bind h
  obtain ⟨cs, u, hclosed, h⟩ := exists_of_bind h
  cases h
  obtain rfl := eq_of_char hopen
  exact .quoted (escaped_of_closedBy hclosed)

theorem written_bareToken : ReadsOnly bareToken Written.Unit := by
  intro s c rest h
  obtain ⟨cs, t, hrun, h⟩ := exists_of_bind h
  cases h
  exact .bare (written_run hrun)

theorem written_unit (hinner : ReadsOnly inner Written.Expansion) : ReadsOnly (unit inner) Written.Unit := by
  intro s c rest h
  rcases ok_of_orElse h with h | h
  · obtain ⟨t, u, rfl, hc, hlayout⟩ := written_enclosed hinner h
    exact .group hc hlayout
  rcases ok_of_orElse h with h | h
  · obtain ⟨d, hd, rfl⟩ := exists_of_map h
    obtain ⟨t, u, rfl, hd, hlayout⟩ := written_enclosed hinner hd
    exact .bracket hd hlayout
  rcases ok_of_orElse h with h | h
  · exact written_reference h
  rcases ok_of_orElse h with h | h
  · exact written_tag h
  rcases ok_of_orElse h with h | h
  · exact written_quoted h
  · exact written_bareToken h

theorem operator_of_ok {operator : Char} (h : postfixOperator s = .ok (operator, t)) :
    s = operator :: t ∧ (operator = '*' ∨ operator = '+') := by
  rcases ok_of_orElse h with h | h
  · obtain ⟨_, u, hchar, h⟩ := exists_of_bind h
    cases h
    exact ⟨eq_of_char hchar, .inl rfl⟩
  · obtain ⟨_, u, hchar, h⟩ := exists_of_bind h
    cases h
    exact ⟨eq_of_char hchar, .inr rfl⟩

theorem repetition_of_operators {operators : List Char} (h : Chain postfixOperator t operators rest)
    (hc : Written.Repetition s c t) : Written.Repetition s (operators.foldl applyPostfix c) rest := by
  induction h generalizing c with
  | nil => exact hc
  | cons hoperator _ ih =>
    obtain ⟨rfl, rfl | rfl⟩ := operator_of_ok hoperator
    · exact ih (.star hc)
    · exact ih (.plus hc)

theorem written_repetition (hinner : ReadsOnly inner Written.Expansion) :
    ReadsOnly (repetition inner) Written.Repetition := by
  intro s c rest h
  obtain ⟨d, t, hd, h⟩ := exists_of_bind h
  obtain ⟨operators, u, hoperators, h⟩ := exists_of_bind h
  cases h
  exact repetition_of_operators (chain_of_many hoperators) (.once (written_unit hinner hd))

theorem items_of_chain (hinner : ReadsOnly inner Written.Expansion)
    (h : Chain (layout *> repetition inner) s xs rest) (hne : xs ≠ []) : Written.Items s xs rest := by
  induction h with
  | nil => exact absurd rfl hne
  | cons hx h ih =>
    obtain ⟨_, u, hlayout, hx⟩ := exists_of_bind hx
    have hlayout := written_layout hlayout
    have hx := written_repetition hinner hx
    cases h with
    | nil => exact .last hlayout hx
    | cons => exact .more hlayout hx (ih nofun)

theorem written_weight {w : Single} (h : weight s = .ok (w, t)) : Written.Weight s (some w) t := by
  obtain ⟨_, u, hopen, h⟩ := exists_of_bind h
  obtain ⟨w, v, hvalue, h⟩ := exists_of_bind h
  obtain ⟨_, r, hclose, h⟩ := exists_of_bind h
  cases h
  obtain ⟨cs, x, hrun, hvalue⟩ := exists_of_bind hvalue
  cases hd : Decimal.read? cs with
  | none => rw [hd] at hvalue; cases hvalue
  | some d =>
    rw [hd] at hvalue
    cases hvalue
    rw [eq_of_char hopen, (written_run hrun).text, eq_of_char (ok_of_cut hclose)]
    exact .some t (read?_eq_some_iff.mp hd)

theorem written_branch (hinner : ReadsOnly inner Written.Expansion) : ReadsOnly (branch inner) Written.Branch := by
  intro s b rest h
  obtain ⟨_, t, hlayout, h⟩ := exists_of_bind h
  obtain ⟨w, u, hweight, h⟩ := exists_of_bind h
  obtain ⟨c, v, hsequence, h⟩ := exists_of_bind h
  cases h
  obtain ⟨items, r, hitems, h⟩ := exists_of_bind hsequence
  cases h
  obtain ⟨hne, hchain⟩ := chain_of_atLeastOnce (ok_of_expecting hitems)
  have hw : Written.Weight t w u := by
    rcases ok_of_orElse hweight with hweight | hnone
    · obtain ⟨w, hw, rfl⟩ := exists_of_map hweight
      exact written_weight hw
    · cases hnone
      exact .none t
  exact .sequence (written_layout hlayout) hw (items_of_chain hinner hchain hne) ((oneOrSequence_eq_iff hne).mp rfl)

theorem branches_of_chain (hinner : ReadsOnly inner Written.Expansion)
    (hb : Written.Branch s b t) (h : Chain (layout *> char '|' *> cut (branch inner)) t bs rest) :
    Written.Branches s (b :: bs) rest := by
  induction h generalizing s b with
  | nil => exact .last hb
  | cons hnext _ ih =>
    obtain ⟨_, u, hbar, hnext⟩ := exists_of_bind hnext
    obtain ⟨_, v, hlayout, hbar⟩ := exists_of_bind hbar
    obtain rfl := eq_of_char hbar
    exact .more hb (written_layout hlayout) (ih (written_branch hinner (ok_of_cut hnext)))

theorem written_branches (hinner : ReadsOnly inner Written.Expansion) :
    ReadsOnly (branches inner) Written.Expansion := by
  intro s c rest h
  obtain ⟨first, t, hfirst, h⟩ := exists_of_bind h
  obtain ⟨others, u, hothers, h⟩ := exists_of_bind h
  cases hc : ofBranches (first :: others) with
  | none => rw [hc] at h; cases h
  | some c =>
    rw [hc] at h
    cases h
    exact .choice (branches_of_chain hinner (written_branch hinner hfirst) (chain_of_many hothers))
      ((ofBranches_eq_some_iff (List.cons_ne_nil _ _)).mp hc)

/-- **What is read as an expansion is the text of one.** -/
theorem written_expansionWithin (n : Nat) : ReadsOnly (expansionWithin n) Written.Expansion := by
  induction n with
  | zero => exact nofun
  | succ n ih => exact written_branches ih

end

/-! ## Grammar texts -/

theorem spaces_of_chars (hcs : ∀ c ∈ cs, (c == ' ' || c == '\t') = true) (rest : List Char) :
    Written.Spaces (cs ++ rest) rest := by
  induction cs with
  | nil => exact .none rest
  | cons c cs ih =>
    rw [List.forall_mem_cons, Bool.or_eq_true, beq_iff_eq, beq_iff_eq] at hcs
    obtain ⟨rfl | rfl, hcs⟩ := hcs
    · exact .space (ih hcs)
    · exact .tab (ih hcs)

theorem written_spaces {x : Unit} (h : spaces s = .ok (x, t)) : Written.Spaces s t := by
  cases h
  have hchars : ∀ c ∈ s.takeWhile fun c => c == ' ' || c == '\t', (c == ' ' || c == '\t') = true :=
    fun c hc => List.mem_takeWhile_imp (p := fun c => c == ' ' || c == '\t') hc
  have hspaces := spaces_of_chars hchars (s.dropWhile fun c => c == ' ' || c == '\t')
  rwa [List.takeWhile_append_dropWhile] at hspaces

theorem written_headerWord {word : String} {x : Unit} (hspaces : spaces s = .ok (x, t))
    (hword : headerWord t = .ok (word, rest)) : Written.HeaderWord s word rest := by
  obtain ⟨cs, hrun, rfl⟩ := exists_of_map hword
  exact .word (written_spaces hspaces) (written_run hrun)

theorem eq_of_semicolon {x : Unit} (h : semicolon s = .ok (x, t)) : s = ';' :: t := eq_of_char (ok_of_cut h)

theorem written_header : ReadsOnly header Written.Header := by
  intro s locale rest h
  obtain ⟨_, t, hlayout, h⟩ := exists_of_bind h
  obtain ⟨_, u, hmark, h⟩ := exists_of_bind h
  obtain ⟨_, v, hversion, h⟩ := exists_of_bind h
  obtain ⟨words, w, hwords, h⟩ := exists_of_bind h
  obtain ⟨_, x, hspaces, h⟩ := exists_of_bind h
  obtain ⟨_, y, hend, h⟩ := exists_of_bind h
  cases h
  rw [eq_of_literal (ok_of_cut (ok_of_expecting hmark))] at hlayout
  obtain rfl := eq_of_semicolon hend
  obtain ⟨version, _, hversion, hnothing⟩ := exists_of_bind (ok_of_expecting hversion)
  obtain ⟨_, a, hspaces', hversion⟩ := exists_of_bind hversion
  cases hnothing
  obtain ⟨hlength, hchain⟩ := chain_of_atMost hwords
  have hwords' : Written.Several Written.HeaderWord v words w := by
    refine several_of_chain (fun s word t hword => ?_) hchain
    obtain ⟨_, b, hspaces, hword⟩ := exists_of_bind hword
    exact written_headerWord hspaces hword
  exact .words (written_layout hlayout) (written_headerWord hspaces' (ok_of_cut hversion)) hwords' hlength
    (written_spaces hspaces)

theorem written_declaration : ReadsOnly declaration Written.Declaration := by
  intro s name rest h
  obtain ⟨_, t, hlayout, h⟩ := exists_of_bind h
  obtain ⟨_, u, hmark, h⟩ := exists_of_bind h
  obtain ⟨_, v, hlayout', h⟩ := exists_of_bind h
  obtain ⟨cs, w, hrun, h⟩ := exists_of_bind h
  obtain ⟨_, x, hlayout'', h⟩ := exists_of_bind h
  obtain ⟨_, y, hend, h⟩ := exists_of_bind h
  cases h
  obtain rfl := eq_of_literal (ok_of_cut (ok_of_expecting hmark))
  obtain rfl := eq_of_semicolon hend
  exact .name (written_layout hlayout) (written_layout hlayout') (written_run (ok_of_cut (ok_of_expecting hrun)))
    (written_layout hlayout'')

theorem written_importStatement : ReadsOnly importStatement Written.Import := by
  intro s name rest h
  obtain ⟨_, t, hlayout, h⟩ := exists_of_bind h
  obtain ⟨_, u, hword, h⟩ := exists_of_bind h
  obtain ⟨_, v, hlayout', h⟩ := exists_of_bind h
  obtain ⟨name, w, hname, h⟩ := exists_of_bind h
  obtain ⟨_, x, hlayout'', h⟩ := exists_of_bind h
  obtain ⟨_, y, hend, h⟩ := exists_of_bind h
  cases h
  obtain ⟨_, a, hopen, hname⟩ := exists_of_bind (ok_of_cut (ok_of_expecting hname))
  obtain ⟨cs, b, hrun, hname⟩ := exists_of_bind hname
  obtain ⟨_, c, hclose, hname⟩ := exists_of_bind hname
  cases hname
  obtain rfl := eq_of_literal hword
  obtain rfl := eq_of_char hopen
  obtain rfl := eq_of_char hclose
  obtain rfl := eq_of_semicolon hend
  exact .name (written_layout hlayout) (written_layout hlayout') (written_run hrun) (written_layout hlayout'')

theorem written_visibility {isPublic : Option Bool} (h : optionally visibility s = .ok (isPublic, t)) :
    Written.Visibility s (isPublic.getD false) t := by
  rcases ok_of_orElse h with hword | hnone
  · obtain ⟨word, hvisibility, rfl⟩ := exists_of_map hword
    rcases ok_of_orElse hvisibility with hpublic | hprivate
    · obtain ⟨_, u, hpublic, hrest⟩ := exists_of_bind hpublic
      cases hrest
      rw [eq_of_literal hpublic]
      exact .saidPublic t
    · obtain ⟨_, u, hprivate, hrest⟩ := exists_of_bind hprivate
      cases hrest
      rw [eq_of_literal hprivate]
      exact .saidPrivate t
  · cases hnone
    exact .unsaid s

theorem eq_of_opening {isPublic : Option Bool} {x : Unit} (h : opening isPublic s = .ok (x, t)) : s = '<' :: t := by
  unfold opening at h
  split at h
  · exact eq_of_char (ok_of_cut h)
  · exact eq_of_char h

theorem written_ruleDefinition : ReadsOnly ruleDefinition Written.Definition := by
  intro s r rest h
  rw [ruleDefinition_eq] at h
  obtain ⟨_, t, hlayout, h⟩ := exists_of_bind h
  obtain ⟨isPublic, u, hvisibility, h⟩ := exists_of_bind h
  obtain ⟨_, v, hlayout', h⟩ := exists_of_bind h
  obtain ⟨_, w, hopen, h⟩ := exists_of_bind h
  obtain ⟨cs, x, hrun, h⟩ := exists_of_bind h
  obtain ⟨_, y, hclose, h⟩ := exists_of_bind h
  obtain ⟨_, z, hlayout'', h⟩ := exists_of_bind h
  obtain ⟨_, a, hequals, h⟩ := exists_of_bind h
  obtain ⟨body, b, hbody, h⟩ := exists_of_bind h
  obtain ⟨_, c, hend, h⟩ := exists_of_bind h
  cases h
  obtain ⟨_, d, hlayout''', hend⟩ := exists_of_bind (ok_of_expecting hend)
  obtain rfl := eq_of_opening hopen
  obtain rfl := eq_of_char (ok_of_cut hclose)
  obtain rfl := eq_of_char (ok_of_cut hequals)
  obtain rfl := eq_of_semicolon hend
  exact .rule (written_layout hlayout) (written_visibility hvisibility) (written_layout hlayout')
    (written_run (ok_of_cut (ok_of_expecting hrun))) (written_layout hlayout'')
    (written_expansionWithin _ (ok_of_cut (ok_of_expecting hbody))) (written_layout hlayout''')

theorem written_document {doc : Document} (h : document s = .ok (doc, rest)) : Written.Document s doc := by
  obtain ⟨locale, t, hheader, h⟩ := exists_of_bind h
  obtain ⟨name, u, hdeclaration, h⟩ := exists_of_bind h
  obtain ⟨imports, v, himports, h⟩ := exists_of_bind h
  obtain ⟨rules, w, hrules, h⟩ := exists_of_bind h
  obtain ⟨_, x, hlayout, h⟩ := exists_of_bind h
  obtain ⟨_, y, hend, h⟩ := exists_of_bind h
  cases h
  have hnil : x = [] := by
    unfold atEnd at hend
    split at hend
    · simpa using ‹x.isEmpty = true›
    · cases hend
  rw [hnil] at hlayout
  exact .parts (written_header hheader) (written_declaration hdeclaration)
    (several_of_chain written_importStatement (chain_of_many himports))
    (several_of_chain written_ruleDefinition (chain_of_many hrules)) (written_layout hlayout)

end Reader

/-- **What is read as a document is its text.** -/
theorem Document.written_of_parse {source : String} {doc : Document} (h : Document.parse source = .ok doc) :
    Written.Document source.toList doc := by
  unfold Document.parse at h
  split at h
  · rename_i rest hread
    cases h
    exact Reader.written_document hread
  · cases h

end SpeechGrammar.Jsgf
