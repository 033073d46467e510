import SpeechGrammar.Proofs.ReadAsWritten

/-!
# What is written is read

Where a form is written at the front of a text, and what follows can follow it, the reader of this form gives what is
written and leaves what follows. Layout need not be as long as possible in its form, but whatever may come after it is
solid, so there is just one place where it can end (`layout_of_written`). An expansion ends where, perhaps after
layout, a closing character is due (`GoesOn`), and its depth is less than the length of its text
(**`Reader.expansionWithin_of_written`**).

So a text is read as a document just if it is the text of this document, and no text is that of two documents
(**`Document.parse_exactly_written`**).
-/

namespace SpeechGrammar.Jsgf

namespace Reader

variable {s t u rest cs : List Char}

/-! ## Layout -/

theorem run_of_written {accepts : Char → Bool} (h : Written.Run accepts s cs rest) :
    run accepts s = .ok (cs, rest) := by
  obtain ⟨rfl, hne, hcs, hrest⟩ := h
  exact run_append hcs hne hrest

theorem blanks_cons {c : Char} (hc : Text.isBlank c = true) (s : List Char) :
    orElse blanks (orElse lineComment blockComment) (c :: s) = .ok ((), s.dropWhile Text.isBlank) := by
  have hrun : run Text.isBlank (c :: s) = .ok (c :: s.takeWhile Text.isBlank, s.dropWhile Text.isBlank) := by
    simp [run, hc]
  exact orElse_of_ok ((bind_of_ok hrun).trans rfl)

/-- A blank character before layout belongs to the stretch of blank characters that the layout starts with, or is one
on its own. -/
theorem chain_blank {c : Char} {parts : List Unit} (hc : Text.isBlank c = true) (ht : Solid t)
    (h : Chain (orElse blanks (orElse lineComment blockComment)) s parts t) :
    ∃ parts, Chain (orElse blanks (orElse lineComment blockComment)) (c :: s) parts t := by
  by_cases hstops : Stops Text.isBlank s
  · have hdrop : s.dropWhile Text.isBlank = s := (takeWhile_append (List.forall_mem_nil _) hstops).2
    exact ⟨() :: parts, .cons ((blanks_cons hc s).trans (by rw [hdrop])) h⟩
  · obtain ⟨d, ds, rfl, hd⟩ : ∃ d ds, s = d :: ds ∧ Text.isBlank d = true := by
      simpa [Stops] using hstops
    cases h with
    | nil => exact absurd ht.blank hstops
    | cons hfirst h =>
      rw [blanks_cons hd] at hfirst
      cases hfirst
      refine ⟨() :: _, .cons ((blanks_cons hc _).trans ?_) h⟩
      rw [List.dropWhile_cons_of_pos hd]

theorem lineComment_append (hcs : ∀ c ∈ cs, c ≠ '\r' ∧ c ≠ '\n') (hs : Written.LineEnding s) :
    lineComment ('/' :: '/' :: (cs ++ s)) = .ok ((), s) := by
  have hline : ∀ c ∈ cs, (c != '\r' && c != '\n') = true := by simpa using hcs
  have hstops : Stops (fun c => c != '\r' && c != '\n') s := by
    cases hs with
    | text => exact stops_nil
    | feed => exact stops_cons rfl _
    | returnAndFeed => exact stops_cons rfl _
  have hslashes : literal ['/', '/'] ('/' :: '/' :: (cs ++ s)) = .ok ((), cs ++ s) := literal_append _ _
  rw [lineComment, bind_of_ok hslashes, bind_of_ok (skip_append cs hline hstops)]
  simp only [lineEnding_iff.mpr hs, ↓reduceIte]

theorem afterClosing_append (hcs : ¬ ['*', '/'] <:+: cs) (s : List Char) :
    afterClosing (cs ++ '*' :: '/' :: s) = some s := by
  induction cs with
  | nil => rfl
  | cons c cs ih =>
    rw [List.infix_cons_iff, not_or] at hcs
    rw [List.cons_append, afterClosing]
    · exact ih hcs.2
    · rintro rest rfl hrest
      cases cs with
      | nil => cases hrest
      | cons d ds =>
        obtain ⟨rfl, -⟩ := List.cons.inj hrest
        exact hcs.1 ⟨ds, rfl⟩

theorem blockComment_append (hcs : ¬ ['*', '/'] <:+: cs) (s : List Char) :
    blockComment ('/' :: '*' :: (cs ++ '*' :: '/' :: s)) = .ok ((), s) := by
  have hopen : literal ['/', '*'] ('/' :: '*' :: (cs ++ '*' :: '/' :: s)) = .ok ((), cs ++ '*' :: '/' :: s) :=
    literal_append _ _
  rw [blockComment, bind_of_ok hopen]
  simp only [afterClosing_append hcs]

theorem chain_of_layout (h : Written.Layout s t) (ht : Solid t) :
    ∃ parts, Chain (orElse blanks (orElse lineComment blockComment)) s parts t := by
  have hblank (s : List Char) : Refuses blanks ('/' :: s) := (refuses_run (stops_cons (by decide) s)).bind
  induction h with
  | none s => exact ⟨[], .nil s⟩
  | blank hc _ ih =>
    obtain ⟨parts, hparts⟩ := ih ht
    exact chain_blank hc ht hparts
  | lineComment hcs hends _ ih =>
    obtain ⟨parts, hparts⟩ := ih ht
    refine ⟨() :: parts, .cons ?_ hparts⟩
    rw [orElse_of_refuses (hblank _)]
    exact orElse_of_ok (lineComment_append hcs hends)
  | blockComment hcs _ ih =>
    obtain ⟨parts, hparts⟩ := ih ht
    refine ⟨() :: parts, .cons ?_ hparts⟩
    have hline (s : List Char) : Refuses lineComment ('/' :: '*' :: s) := (refuses_literal (by simp)).bind
    rw [orElse_of_refuses (hblank _), orElse_of_refuses (hline _)]
    exact blockComment_append hcs _

/-- **Layout ends where the text is solid.** -/
theorem layout_of_written (h : Written.Layout s t) (ht : Solid t) : layout s = .ok ((), t) := by
  obtain ⟨parts, hparts⟩ := chain_of_layout h ht
  rw [layout, bind_of_ok (many_of_chain takes_layoutPart hparts (refuses_layoutPart ht)), pure_eq]

theorem layout_char {c : Char} (hblank : Text.isBlank c = false) (hslash : c ≠ '/')
    (h : Written.Layout s (c :: rest)) : layout s = .ok ((), c :: rest) :=
  layout_of_written h (solid_cons hblank hslash rest)

theorem length_le_of_layout (h : Written.Layout s t) : t.length ≤ s.length := by
  induction h with
  | none => exact Nat.le_refl _
  | blank _ _ ih => exact Nat.le_succ_of_le ih
  | lineComment _ _ _ ih =>
    simp only [List.length_cons, List.length_append]
    omega
  | blockComment _ _ ih =>
    simp only [List.length_cons, List.length_append]
    omega

/-! ## Items -/

section

variable {inner : Reader Component} {c : Component} {w : Option Single} {b : Option Single × Component}
  {bs : List (Option Single × Component)} {xs : List Component}

theorem Refuses.not_ok {α : Type} {p : Reader α} {x : α × List Char} (h : Refuses p s) : p s ≠ .ok x := by
  obtain ⟨e, he, -⟩ := h
  simp [he]

/-- What a unit starts with. -/
theorem head_of_unit {d : Char} (h : unit inner (d :: s) = .ok (c, t)) :
    Text.isBlank d = false ∧ d ≠ '/' ∧ d ≠ '*' ∧ d ≠ '+' := by
  have hstart : opensUnit d = true ∨ isBare d = true := by
    by_contra hnot
    simp only [not_or, Bool.not_eq_true] at hnot
    exact (refuses_unit hnot.1 hnot.2 s).not_ok h
  rcases hstart with hopens | hbare
  · simp only [opensUnit, List.contains_eq_mem, decide_eq_true_eq, List.mem_cons, List.not_mem_nil, or_false] at hopens
    rcases hopens with rfl | rfl | rfl | rfl | rfl <;> decide
  · simp only [isBare, Bool.and_eq_true, Bool.not_eq_true', List.contains_eq_mem, decide_eq_false_iff_not] at hbare
    refine ⟨hbare.1, ?_, ?_, ?_⟩ <;> rintro rfl <;> exact hbare.2 (by decide)

theorem solid_of_unit (h : unit inner s = .ok (c, t)) : Solid s := by
  cases s with
  | nil => exact solid_nil
  | cons d ds =>
    obtain ⟨hblank, hslash, -⟩ := head_of_unit h
    exact solid_cons hblank hslash ds

/-- Layout is no operator, nor does it start with one. -/
theorem refuses_postfixOperator_of_layout {x : Unit} (hlayout : layout s = .ok (x, t))
    (ht : Refuses postfixOperator t) : Refuses postfixOperator s := by
  by_cases hhead : s.head? = some '*' ∨ s.head? = some '+'
  · obtain ⟨d, ds, rfl, hd⟩ : ∃ d ds, s = d :: ds ∧ (d = '*' ∨ d = '+') := by
      cases s with
      | nil => simp at hhead
      | cons d ds => exact ⟨d, ds, rfl, by simpa using hhead⟩
    have hsolid : Solid (d :: ds) := by rcases hd with rfl | rfl <;> exact solid_cons (by decide) (by decide) ds
    rw [layout_solid hsolid] at hlayout
    cases hlayout
    exact ht
  · rw [not_or] at hhead
    exact refuses_postfixOperator hhead.1 hhead.2

theorem refuses_postfixOperator_of_unit (h : unit inner s = .ok (c, t)) : Refuses postfixOperator s := by
  cases s with
  | nil => exact refuses_postfixOperator (by simp) (by simp)
  | cons d ds =>
    obtain ⟨-, -, hstar, hplus⟩ := head_of_unit h
    exact refuses_postfixOperator (by simpa using hstar) (by simpa using hplus)

/-- A unit and operators that no other one follows, with layout before them. -/
theorem item_of_operators {operators : List Char} (hlayout : Written.Layout s t) (hunit : unit inner t = .ok (c, u))
    (hoperators : Chain postfixOperator u operators rest) (hrest : Refuses postfixOperator rest) :
    (layout *> repetition inner) s = .ok (operators.foldl applyPostfix c, rest) := by
  have hrepetition : repetition inner t = .ok (operators.foldl applyPostfix c, rest) := by
    rw [repetition, bind_of_ok hunit, bind_of_ok (many_of_chain takes_postfixOperator hoperators hrest), pure_eq]
  exact (seqRight_of_ok (layout_of_written hlayout (solid_of_unit hunit))).trans hrepetition

/-- An item of a sequence is a unit, after layout, with operators. -/
theorem exists_of_item (h : (layout *> repetition inner) s = .ok (c, rest)) :
    ∃ t d u, layout s = .ok ((), t) ∧ unit inner t = .ok (d, u) ∧ repetition inner t = .ok (c, rest) := by
  obtain ⟨_, t, hlayout, hrepetition⟩ := exists_of_bind h
  obtain ⟨d, u, hunit, -⟩ := exists_of_bind hrepetition
  exact ⟨t, d, u, hlayout, hunit, hrepetition⟩

theorem refuses_postfixOperator_of_chain (h : Chain (layout *> repetition inner) s xs rest) (hne : xs ≠ []) :
    Refuses postfixOperator s := by
  cases h with
  | nil => exact absurd rfl hne
  | cons hx _ =>
    obtain ⟨t, d, u, hlayout, hunit, -⟩ := exists_of_item hx
    exact refuses_postfixOperator_of_layout hlayout (refuses_postfixOperator_of_unit hunit)

/-! ## What follows -/

/-- After layout the text goes on with one of these characters. -/
def GoesOn (marks : List Char) (s : List Char) : Prop := ∃ d ds, d ∈ marks ∧ layout s = .ok ((), d :: ds)

/-- The characters after an expansion. -/
def closers : List Char := [')', ']', ';']

/-- The characters after a branch. -/
def enders : List Char := '|' :: closers

theorem ender_facts {d : Char} (hd : d ∈ enders) :
    (Text.isBlank d = false ∧ d ≠ '/') ∧ (d ≠ '*' ∧ d ≠ '+') ∧ opensUnit d = false ∧ isBare d = false := by
  simp only [enders, closers, List.mem_cons, List.not_mem_nil, or_false] at hd
  rcases hd with rfl | rfl | rfl | rfl <;> decide

theorem goesOn_of_layout {d : Char} {marks : List Char} (hmarks : marks ⊆ enders) (hd : d ∈ marks)
    (h : Written.Layout s (d :: rest)) : GoesOn marks s := by
  obtain ⟨⟨hblank, hslash⟩, -⟩ := ender_facts (hmarks hd)
  exact ⟨d, rest, hd, layout_char hblank hslash h⟩

theorem closers_subset_enders : closers ⊆ enders := List.subset_cons_self _ _

theorem GoesOn.ender (h : GoesOn closers s) : GoesOn enders s := by
  obtain ⟨d, ds, hd, hlayout⟩ := h
  exact ⟨d, ds, closers_subset_enders hd, hlayout⟩

theorem GoesOn.refuses_postfixOperator (h : GoesOn enders s) : Refuses postfixOperator s := by
  obtain ⟨d, ds, hd, hlayout⟩ := h
  obtain ⟨-, ⟨hstar, hplus⟩, -⟩ := ender_facts hd
  exact refuses_postfixOperator_of_layout hlayout
    (Reader.refuses_postfixOperator (by simpa using hstar) (by simpa using hplus))

theorem GoesOn.refuses_item (h : GoesOn enders s) : Refuses (layout *> repetition inner) s := by
  obtain ⟨d, ds, hd, hlayout⟩ := h
  obtain ⟨-, -, hopens, hbare⟩ := ender_facts hd
  exact refuses_seqRight_of_ok hlayout (refuses_unit hopens hbare ds).bind

theorem GoesOn.refuses_bar (h : GoesOn closers s) : Refuses (layout *> char '|' *> cut (branch inner)) s := by
  obtain ⟨d, ds, hd, hlayout⟩ := h
  have hbar : d ≠ '|' := by
    rintro rfl
    exact absurd hd (by decide)
  exact (refuses_seqRight_of_ok hlayout (refuses_char_cons hbar ds)).seqRight

/-! ## Branches -/

theorem weightChars_of_number {d : Decimal} (h : Written.Number cs d) :
    cs ≠ [] ∧ ∀ c ∈ cs, isWeightChar c = true := by
  cases h with
  | whole hcs hne => exact ⟨hne, fun c hc => by simp [isWeightChar, hcs c hc]⟩
  | @fraction cs ds hcs hds =>
    refine ⟨by simp, fun c hc => ?_⟩
    rcases List.mem_append.mp hc with hc | hc
    · simp [isWeightChar, hcs c hc]
    · rcases List.mem_cons.mp hc with rfl | hc
      · rfl
      · simp [isWeightChar, hds c hc]

theorem weight_of_number {d : Decimal} (h : Written.Number cs d) (rest : List Char) :
    Solid ('/' :: (cs ++ '/' :: rest)) ∧ weight ('/' :: (cs ++ '/' :: rest)) = .ok (Single.ofDecimal d, rest) := by
  obtain ⟨hne, hcs⟩ := weightChars_of_number h
  refine ⟨?_, weight_of_read? hcs hne (read?_eq_some_iff.mpr h) rest⟩
  obtain ⟨c, cs, rfl⟩ := List.exists_cons_of_ne_nil hne
  have hc := hcs c List.mem_cons_self
  exact solid_slash (by rintro rfl; cases hc) (by rintro rfl; cases hc) (cs ++ '/' :: rest)

/-- Items with the layout and the weight before them. -/
theorem branch_of_chain (hinner : Takes inner 0) (hlayout : Written.Layout s t) (hweight : Written.Weight t w u)
    (h : Chain (layout *> repetition inner) u xs rest) (hne : xs ≠ []) (hrest : GoesOn enders rest) :
    branch inner s = .ok ((w, oneOrSequence xs), rest) := by
  cases hweight with
  | none =>
    cases h with
    | nil => exact absurd rfl hne
    | cons hx h =>
      -- the layout before the first item is read before the weight
      obtain ⟨v, d, u, hlayout', hunit, hrepetition⟩ := exists_of_item hx
      have hsolid := solid_of_unit hunit
      have hnone : Refuses weight v := by
        refine (refuses_char fun hslash => ?_).bind
        obtain ⟨v, rfl⟩ := List.head?_eq_some_iff.mp hslash
        exact (head_of_unit hunit).2.1 rfl
      have hlayout := layout_of_written (hlayout.trans (written_layout hlayout')) hsolid
      have hchain := Chain.cons (item_of_repetition hsolid hrepetition) h
      rw [branch, bind_of_ok hlayout, bind_of_ok (optionally_of_refuses hnone),
        bind_of_ok (sequence_of_chain hinner hchain hne hrest.refuses_item), pure_eq]
  | some _ hnumber =>
    obtain ⟨hsolid, hweight⟩ := weight_of_number hnumber u
    rw [branch, bind_of_ok (layout_of_written hlayout hsolid), bind_of_ok (optionally_of_ok hweight),
      bind_of_ok (sequence_of_chain hinner h hne hrest.refuses_item), pure_eq]

theorem length_le_of_weight (h : Written.Weight s w t) : t.length ≤ s.length := by
  cases h with
  | none => exact Nat.le_refl _
  | some =>
    simp only [List.length_cons, List.length_append]
    omega

/-- A bar after layout, and a branch. -/
theorem nextBranch_of_written (hlayout : Written.Layout s ('|' :: t)) (h : branch inner t = .ok (b, rest)) :
    (layout *> char '|' *> cut (branch inner)) s = .ok (b, rest) := by
  have hbar := layout_char (by decide) (by decide) hlayout
  exact (seqRight_of_ok ((seqRight_of_ok hbar).trans (char_cons '|' t))).trans (cut_of_ok h)

end

/-! ## Expansions

The induction is on what is written. Nested expansions come after a bracket, so the depth that is left is still enough
for the length of their texts. -/

mutual

/-- **What is written as an expansion is read as one**, if expansions may be nested as deep as the text is long. -/
theorem expansionWithin_of_written {s rest : List Char} {c : Component} {n : Nat} :
    Written.Expansion s c rest → GoesOn closers rest → s.length ≤ n → expansionWithin n s = .ok (c, rest)
  | .choice hbs hc, hrest, hn => by
    obtain ⟨b, others, t, rfl, hb, hothers⟩ := branches_of_written (n := n - 1) hbs hrest (by omega)
    have hinner := takes_nested (n - 1)
    have hlength := (takes_branch hinner hb).2
    obtain ⟨m, rfl⟩ : ∃ m, n = m + 1 := Nat.exists_eq_add_one.mpr (by omega)
    rw [Nat.add_sub_cancel] at hb hothers hinner
    rw [expansionWithin, branches, bind_of_ok hb,
      bind_of_ok (many_of_chain (takes_nextBranch hinner) hothers hrest.refuses_bar),
      (ofBranches_eq_some_iff (List.cons_ne_nil _ _)).mpr hc]
    rfl

/-- The first branch and those after a bar. -/
theorem branches_of_written {s rest : List Char} {bs : List (Option Single × Component)} {n : Nat} :
    Written.Branches s bs rest → GoesOn closers rest → s.length ≤ n + 1 →
      ∃ b others t, bs = b :: others ∧ branch (expansionWithin n) s = .ok (b, t) ∧
        Chain (layout *> char '|' *> cut (branch (expansionWithin n))) t others rest
  | .last hb, hrest, hn => ⟨_, [], _, rfl, branch_of_written hb hrest.ender hn, .nil _⟩
  | .more hb hlayout hbs, hrest, hn => by
    have hb := branch_of_written hb (goesOn_of_layout (List.Subset.refl _) (by decide) hlayout) hn
    have hinner := takes_nested n
    have hlength := (takes_branch hinner hb).2
    have hlength' := length_le_of_layout hlayout
    rw [List.length_cons] at hlength'
    obtain ⟨next, others, u, rfl, hnext, hothers⟩ := branches_of_written (n := n) hbs hrest (by omega)
    exact ⟨_, _, _, rfl, hb, .cons (nextBranch_of_written hlayout hnext) hothers⟩

theorem branch_of_written {s rest : List Char} {b : Option Single × Component} {n : Nat} :
    Written.Branch s b rest → GoesOn enders rest → s.length ≤ n + 1 → branch (expansionWithin n) s = .ok (b, rest)
  | .sequence hlayout hweight hitems hc, hrest, hn => by
    have hinner := takes_nested n
    have hlength := length_le_of_layout hlayout
    have hlength' := length_le_of_weight hweight
    obtain ⟨hne, hchain⟩ := items_of_written (n := n) hitems hrest (by omega)
    have hb := branch_of_chain hinner hlayout hweight hchain hne hrest
    rwa [(oneOrSequence_eq_iff hne).mpr hc] at hb

theorem items_of_written {s rest : List Char} {xs : List Component} {n : Nat} :
    Written.Items s xs rest → GoesOn enders rest → s.length ≤ n + 1 →
      xs ≠ [] ∧ Chain (layout *> repetition (expansionWithin n)) s xs rest
  | .last hlayout hx, hrest, hn => by
    have hlength := length_le_of_layout hlayout
    obtain ⟨d, u, operators, hunit, hoperators, rfl⟩ := repetition_of_written (n := n) hx (by omega)
    exact ⟨nofun, .cons (item_of_operators hlayout hunit hoperators hrest.refuses_postfixOperator) (.nil _)⟩
  | .more hlayout hx hxs, hrest, hn => by
    have hlength := length_le_of_layout hlayout
    obtain ⟨d, u, operators, hunit, hoperators, rfl⟩ := repetition_of_written (n := n) hx (by omega)
    have hinner := takes_nested n
    have hlength' := (takes_unit hinner hunit).2
    have hlength'' := hoperators.length_le takes_postfixOperator
    -- the next item starts neither with an operator nor with layout that is one
    obtain ⟨hne, hchain⟩ := items_of_written (n := n) hxs hrest (by omega)
    exact ⟨nofun, .cons (item_of_operators hlayout hunit hoperators (refuses_postfixOperator_of_chain hchain hne))
      hchain⟩

/-- The unit and the operators, the last of which is applied last. -/
theorem repetition_of_written {s rest : List Char} {c : Component} {n : Nat} :
    Written.Repetition s c rest → s.length ≤ n + 1 →
      ∃ d t operators, unit (expansionWithin n) s = .ok (d, t) ∧ Chain postfixOperator t operators rest ∧
        operators.foldl applyPostfix d = c
  | .once hc, hn => ⟨_, _, [], unit_of_written hc hn, .nil _, rfl⟩
  | .star hc, hn => by
    obtain ⟨d, t, operators, hunit, hoperators, rfl⟩ := repetition_of_written hc hn
    exact ⟨d, t, operators ++ ['*'], hunit, hoperators.append (.cons (operator_cons (.inl rfl) rest) (.nil rest)),
      List.foldl_concat ..⟩
  | .plus hc, hn => by
    obtain ⟨d, t, operators, hunit, hoperators, rfl⟩ := repetition_of_written hc hn
    exact ⟨d, t, operators ++ ['+'], hunit, hoperators.append (.cons (operator_cons (.inr rfl) rest) (.nil rest)),
      List.foldl_concat ..⟩

theorem unit_of_written {s rest : List Char} {c : Component} {n : Nat} :
    Written.Unit s c rest → s.length ≤ n + 1 → unit (expansionWithin n) s = .ok (c, rest)
  | .group hc hlayout, hn => by
    have hclose := goesOn_of_layout closers_subset_enders (by decide) hlayout
    exact unit_group (expansionWithin_of_written hc hclose (Nat.le_of_succ_le_succ hn))
      (layout_char (by decide) (by decide) hlayout)
  | .bracket hc hlayout, hn => by
    have hclose := goesOn_of_layout closers_subset_enders (by decide) hlayout
    exact unit_bracket (expansionWithin_of_written hc hclose (Nat.le_of_succ_le_succ hn))
      (layout_char (by decide) (by decide) hlayout)
  | .name hrun hname, hn => by
    obtain ⟨rfl, hne, hcs, -⟩ := hrun
    rw [unit_name hne hcs, namedComponent_eq_iff.mpr hname]
  | .tag htext, hn => unit_tag ((unescape_eq_ok_iff (by decide)).mpr htext)
  | .quoted htext, hn => unit_quoted ((unescape_eq_ok_iff (by decide)).mpr htext)
  | .bare hrun, hn => by
    obtain ⟨rfl, hne, hcs, hrest⟩ := hrun
    exact unit_bare hne hcs hrest

end

/-! ## Grammar texts -/

section

variable {α : Type} {p : Reader α} {as : List α} {form : List Char → α → List Char → Prop}

theorem chain_of_several (hp : ∀ {s a t}, form s a t → p s = .ok (a, t)) (h : Written.Several form s as t) :
    Chain p s as t := by
  induction h with
  | nil s => exact .nil s
  | cons ha _ ih => exact .cons (hp ha) ih

theorem atMost_of_chain {n : Nat} (h : Chain p s as t) (ht : Refuses p t) (hn : as.length ≤ n) :
    atMost p n s = .ok (as, t) := by
  induction h generalizing n with
  | nil s => cases n <;> first | rfl | exact again_of_refuses ht
  | cons ha _ ih =>
    cases n with
    | zero => cases hn
    | succ n => exact again_of_ok ha (ih ht (Nat.le_of_succ_le_succ hn))

end

theorem spaces_of_written (h : Written.Spaces s t) (ht : Stops Text.isBlank t) : spaces s = .ok ((), t) := by
  induction h with
  | none => exact spaces_stop ht
  | space _ ih => exact ih ht
  | tab _ ih => exact ih ht

theorem headerWord_of_written {word : String} (h : Written.HeaderWord s word rest) :
    ∃ t, spaces s = .ok ((), t) ∧ headerWord t = .ok (word, rest) := by
  obtain ⟨hspaces, hrun⟩ := h
  refine ⟨_, spaces_of_written hspaces ?_, map_of_ok (run_of_written hrun)⟩
  obtain ⟨rfl, hne, hcs, -⟩ := hrun
  obtain ⟨d, ds, rfl⟩ := List.exists_cons_of_ne_nil hne
  have hd := hcs d List.mem_cons_self
  simp only [isHeaderChar, Bool.and_eq_true, Bool.not_eq_true'] at hd
  exact stops_cons hd.1 _

theorem header_of_written {locale : Option String} (h : Written.Header s locale rest) :
    header s = .ok (locale, rest) := by
  cases h with
  | @words t u v _ _ words hlayout hversion hwords hlength hend =>
    have hmark : expecting .headerMark (cut (literal "#JSGF".toList)) ("#JSGF".toList ++ t) = .ok ((), t) :=
      expecting_of_ok (cut_of_ok (literal_append _ t))
    obtain ⟨t', hspaces, hversion⟩ := headerWord_of_written hversion
    have hversion : (spaces *> cut headerWord *> pure ()) t = .ok ((), u) :=
      (seqRight_of_ok ((seqRight_of_ok hspaces).trans (cut_of_ok hversion))).trans rfl
    have hend := spaces_of_written hend (stops_cons (by decide) rest)
    have hchain : Chain (spaces *> headerWord) u words v := by
      refine chain_of_several (fun hword => ?_) hwords
      obtain ⟨t, hspaces, hword⟩ := headerWord_of_written hword
      exact (seqRight_of_ok hspaces).trans hword
    -- the semicolon is not a word
    have hnone : Refuses (spaces *> headerWord) v :=
      refuses_seqRight_of_ok hend (refuses_run (stops_cons (by decide) rest)).map
    rw [header, bind_of_ok (layout_of_written hlayout (solid_cons (by decide) (by decide) _)), bind_of_ok hmark,
      bind_of_ok (expecting_of_ok hversion), bind_of_ok (atMost_of_chain hchain hnone hlength), bind_of_ok hend,
      bind_of_ok (semicolon_cons rest), pure_eq]

theorem declaration_of_written {name : String} (h : Written.Declaration s name rest) :
    declaration s = .ok (name, rest) := by
  cases h with
  | @name t u v cs _ hlayout hname hrun hend =>
    have hword : expecting .declaration (cut (literal "grammar".toList)) ("grammar".toList ++ t) = .ok ((), t) :=
      expecting_of_ok (cut_of_ok (literal_append _ t))
    have hsolid : Solid u := by
      have hname : IsGrammarName (String.ofList cs) := by simpa [IsGrammarName] using ⟨hrun.nonempty, hrun.accepted⟩
      simpa [hrun.text] using solid_grammarName hname v
    rw [declaration, bind_of_ok (layout_of_written hlayout (solid_cons (by decide) (by decide) _)), bind_of_ok hword,
      bind_of_ok (layout_of_written hname hsolid), bind_of_ok (expecting_of_ok (cut_of_ok (run_of_written hrun))),
      bind_of_ok (layout_char (by decide) (by decide) hend), bind_of_ok (semicolon_cons rest), pure_eq]

theorem importStatement_of_written {name : String} (h : Written.Import s name rest) :
    importStatement s = .ok (name, rest) := by
  cases h with
  | @name t u v cs _ hlayout hopen hrun hend =>
    have hname : importedName ('<' :: u) = .ok (String.ofList cs, v) := by
      rw [importedName, bind_of_ok (char_cons '<' u), bind_of_ok (run_of_written hrun), bind_of_ok (char_cons '>' v),
        pure_eq]
    rw [importStatement, bind_of_ok (layout_of_written hlayout (solid_cons (by decide) (by decide) _)),
      bind_of_ok (literal_append _ t), bind_of_ok (layout_char (by decide) (by decide) hopen),
      bind_of_ok (expecting_of_ok (cut_of_ok hname)), bind_of_ok (layout_char (by decide) (by decide) hend),
      bind_of_ok (semicolon_cons rest), pure_eq]

/-- The word before a rule, up to the bracket. There is no import in its place. -/
theorem visibility_of_written {isPublic : Bool} (hlayout : Written.Layout s t)
    (h : Written.Visibility t isPublic u) (hopen : Written.Layout u ('<' :: rest)) :
    ∃ t word u, layout s = .ok ((), t) ∧ ¬ "import".toList <+: t ∧ optionally visibility t = .ok (word, u) ∧
      layout u = .ok ((), '<' :: rest) ∧ word.getD false = isPublic := by
  have hbracket := layout_char (by decide) (by decide) hopen
  cases h with
  | unsaid =>
    have hnone : Refuses visibility ('<' :: rest) := refuses_visibility (by simp) (by simp)
    exact ⟨_, none, _, layout_char (by decide) (by decide) (hlayout.trans hopen), by simp, optionally_of_refuses hnone,
      layout_solid (solid_cons (by decide) (by decide) rest), rfl⟩
  | saidPublic =>
    have hword : visibility ("public".toList ++ u) = .ok (true, u) :=
      orElse_of_ok ((seqRight_of_ok (literal_append _ _)).trans rfl)
    exact ⟨_, some true, u, layout_of_written hlayout (solid_cons (by decide) (by decide) _), by simp,
      optionally_of_ok hword, hbracket, rfl⟩
  | saidPrivate =>
    have hword : visibility ("private".toList ++ u) = .ok (false, u) := by
      rw [visibility, orElse_of_refuses (refuses_literal (by simp)).seqRight]
      exact (seqRight_of_ok (literal_append _ _)).trans rfl
    exact ⟨_, some false, u, layout_of_written hlayout (solid_cons (by decide) (by decide) _), by simp,
      optionally_of_ok hword, hbracket, rfl⟩

theorem ruleDefinition_of_written {r : Rule} (h : Written.Definition s r rest) : ruleDefinition s = .ok (r, rest) := by
  cases h with
  | @rule t u v w x y cs _ isPublic body hlayout hvisibility hopen hrun hequals hbody hend =>
    obtain ⟨t, word, u, hlayout, -, hword, hbracket, rfl⟩ := visibility_of_written hlayout hvisibility hopen
    have hfollow : GoesOn closers y := goesOn_of_layout closers_subset_enders (by decide) hend
    have hbody : expansion x = .ok (body, y) := expansionWithin_of_written hbody hfollow (Nat.le_refl _)
    have hsemicolon := (seqRight_of_ok (layout_char (by decide) (by decide) hend)).trans (semicolon_cons rest)
    rw [ruleDefinition_eq, bind_of_ok hlayout, bind_of_ok hword, bind_of_ok hbracket, bind_of_ok (opening_print word v),
      definitionFromName, bind_of_ok (expecting_of_ok (cut_of_ok (run_of_written hrun))),
      bind_of_ok (cut_of_ok (char_cons '>' w)), bind_of_ok (layout_char (by decide) (by decide) hequals),
      bind_of_ok (cut_of_ok (char_cons '=' x)), bind_of_ok (expecting_of_ok (cut_of_ok hbody)),
      bind_of_ok (expecting_of_ok hsemicolon), pure_eq]

/-- Neither before a rule nor at the end of the text there is an import. -/
theorem refuses_importStatement_of_written {rules : List Rule} (h : Written.Several Written.Definition s rules t)
    (hend : layout t = .ok ((), [])) : Refuses importStatement s := by
  cases h with
  | nil => exact refuses_bind_of_ok hend (refuses_literal (by simp)).bind
  | cons hr _ =>
    obtain ⟨hlayout, hvisibility, hopen, -⟩ := hr
    obtain ⟨t, word, u, hlayout, himport, -⟩ := visibility_of_written hlayout hvisibility hopen
    exact refuses_bind_of_ok hlayout (refuses_literal himport).bind

theorem takes_importStatement : Takes importStatement 1 := by
  have hname : Takes importedName 0 :=
    Takes.weaken ((takes_char '<').bind fun _ => takes_run.bind fun _ => (takes_char '>').bind fun _ => takes_pure _)
      (by decide)
  refine Takes.weaken (takes_layout.bind fun _ => (takes_literal _).bind fun _ => takes_layout.bind fun _ =>
    hname.cut.expecting.bind fun _ => takes_layout.bind fun _ => (takes_char ';').cut.bind fun _ => takes_pure _) ?_
  decide

theorem document_of_written {doc : Document} (h : Written.Document s doc) : document s = .ok (doc, []) := by
  cases h with
  | @parts t u v w locale name imports rules hheader hdeclaration himports hrules hend =>
    have hend := layout_of_written hend solid_nil
    have himports := many_of_chain takes_importStatement (chain_of_several importStatement_of_written himports)
      (refuses_importStatement_of_written hrules hend)
    have hrules := many_of_chain takes_ruleDefinition (chain_of_several ruleDefinition_of_written hrules)
      (refuses_ruleDefinition hend)
    have hnothing : atEnd [] = .ok ((), []) := rfl
    rw [document, bind_of_ok (header_of_written hheader), bind_of_ok (declaration_of_written hdeclaration),
      bind_of_ok himports, bind_of_ok hrules, bind_of_ok hend, bind_of_ok hnothing, pure_eq]

end Reader

namespace Document

variable {source : String} {doc : Document}

theorem parse_of_written (h : Written.Document source.toList doc) : parse source = .ok doc := by
  simp only [parse, Reader.document_of_written h]

/-- **A text is read as a document just if it is the text of this document**, and it is the text of at most one. -/
theorem parse_exactly_written (source : String) :
    (∀ doc, parse source = .ok doc ↔ Written.Document source.toList doc) ∧
      ∀ doc doc', Written.Document source.toList doc → Written.Document source.toList doc' → doc = doc' := by
  refine ⟨fun doc => ⟨written_of_parse, parse_of_written⟩, fun doc doc' h h' => ?_⟩
  exact Except.ok.inj ((parse_of_written h).symm.trans (parse_of_written h'))

end Document

end SpeechGrammar.Jsgf
