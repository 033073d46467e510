import SpeechGrammar.Jsgf.Document
import SpeechGrammar.Proofs.Rereading

/-!
# How grammar texts are written

The forms of grammar text, without a word about how they are read. A form relates a text, what is written at its
front, and what follows: `Written.Expansion s c rest` says that `s` starts with an expansion that stands for `c` and
goes on with `rest`. Layout may be left out wherever it may stand, and nothing but a name, a bare token or a word of
the header has to be as long as possible (`Written.Run`).

The leaves that a function computes are computed as their forms say: escaped text (**`unescape_eq_ok_iff`**), numbers
(**`read?_eq_some_iff`**), names (**`namedComponent_eq_iff`**) and choices (**`ofBranches_eq_some_iff`**).
-/

namespace SpeechGrammar.Jsgf

namespace Written

open Reader (Stops)

/-! ## Characters -/

/-- The end of a line, which a line comment leaves to the text after it. -/
inductive LineEnding : List Char → Prop
  | text : LineEnding []
  | feed (s : List Char) : LineEnding ('\n' :: s)
  | returnAndFeed (s : List Char) : LineEnding ('\r' :: '\n' :: s)

/-- Blank characters and complete comments, perhaps none. A comment that starts with `//` goes on up to the end of its
line, and one that starts with `/*` to the first `*/`. -/
inductive Layout : List Char → List Char → Prop
  | none (s : List Char) : Layout s s
  | blank {c : Char} {s rest : List Char} : Text.isBlank c = true → Layout s rest → Layout (c :: s) rest
  | lineComment {cs s rest : List Char} :
    (∀ c ∈ cs, c ≠ '\r' ∧ c ≠ '\n') → LineEnding s → Layout s rest → Layout ('/' :: '/' :: (cs ++ s)) rest
  | blockComment {cs s rest : List Char} :
    ¬ ['*', '/'] <:+: cs → Layout s rest → Layout ('/' :: '*' :: (cs ++ '*' :: '/' :: s)) rest

/-- Spaces and tabs, perhaps none. -/
inductive Spaces : List Char → List Char → Prop
  | none (s : List Char) : Spaces s s
  | space {s rest : List Char} : Spaces s rest → Spaces (' ' :: s) rest
  | tab {s rest : List Char} : Spaces s rest → Spaces ('\t' :: s) rest

/-- Characters of a class, at least one, up to the first other one. -/
structure Run (accepts : Char → Bool) (s cs rest : List Char) : Prop where
  text : s = cs ++ rest
  nonempty : cs ≠ []
  accepted : ∀ c ∈ cs, accepts c = true
  maximal : Stops accepts rest

/-- Text up to a closing character. The closing character and the backslash stand for themselves after a backslash;
before any other character a backslash stands for itself. -/
inductive Escaped (close : Char) : List Char → List Char → List Char → Prop
  | closing (rest : List Char) : Escaped close (close :: rest) [] rest
  | plain {c : Char} {s cs rest : List Char} :
    c ≠ close → c ≠ '\\' → Escaped close s cs rest → Escaped close (c :: s) (c :: cs) rest
  | escape {c : Char} {s cs rest : List Char} :
    c = close ∨ c = '\\' → Escaped close s cs rest → Escaped close ('\\' :: c :: s) (c :: cs) rest
  | backslash {c : Char} {s cs rest : List Char} :
    c ≠ close → c ≠ '\\' → Escaped close s cs rest → Escaped close ('\\' :: c :: s) ('\\' :: c :: cs) rest

/-- Digits with at most one point among them, and at least one digit. -/
inductive Number : List Char → Decimal → Prop
  | whole {cs : List Char} :
    (∀ c ∈ cs, c.isDigit = true) → cs ≠ [] → Number cs ⟨Nat.ofDigitChars 10 cs 0, 0⟩
  | fraction {cs ds : List Char} :
    (∀ c ∈ cs, c.isDigit = true) → (∀ d ∈ ds, d.isDigit = true) → cs ≠ [] ∨ ds ≠ [] →
    Number (cs ++ '.' :: ds) ⟨Nat.ofDigitChars 10 (cs ++ ds) 0, ds.length⟩

/-- What a name in angle brackets stands for. -/
inductive Name : List Char → Component → Prop
  | null : Name "NULL".toList (.sequence [])
  | void : Name "VOID".toList (.alternatives [] none)
  | plain {cs : List Char} : cs ≠ "NULL".toList → cs ≠ "VOID".toList → '.' ∉ cs →
    Name cs (.reference ⟨String.ofList cs, none⟩)
  /-- The dot is the last one. -/
  | qualified (grammar : List Char) {rule : List Char} : '.' ∉ rule →
    Name (grammar ++ '.' :: rule) (.reference ⟨String.ofList rule, some (String.ofList grammar)⟩)

/-! ## Expansions -/

/-- A weight between slashes, or none. -/
inductive Weight : List Char → Option Single → List Char → Prop
  | none (s : List Char) : Weight s none s
  | some {cs : List Char} {d : Decimal} (rest : List Char) : Number cs d →
    Weight ('/' :: (cs ++ '/' :: rest)) (some (Single.ofDecimal d)) rest

/-- What branches stand for together: either all have a weight or none has. A single one without a weight is itself. -/
inductive Choice : List (Option Single × Component) → Component → Prop
  | single (c : Component) : Choice [(none, c)] c
  | plain {cs : List Component} : 2 ≤ cs.length → Choice (cs.map fun c => (none, c)) (.alternatives cs none)
  | weighted {bs : List (Single × Component)} : bs ≠ [] →
    Choice (bs.map fun b => (some b.1, b.2)) (.alternatives (bs.map Prod.snd) (some (bs.map Prod.fst)))

/-- What items stand for together. A single one is itself. -/
inductive Listing : List Component → Component → Prop
  | single (c : Component) : Listing [c] c
  | several {cs : List Component} : 2 ≤ cs.length → Listing cs (.sequence cs)

mutual

/-- An expansion is a choice between branches. -/
inductive Expansion : List Char → Component → List Char → Prop
  | choice {s rest : List Char} {bs : List (Option Single × Component)} {c : Component} :
    Branches s bs rest → Choice bs c → Expansion s c rest

/-- Branches with bars between them. -/
inductive Branches : List Char → List (Option Single × Component) → List Char → Prop
  | last {s rest : List Char} {b : Option Single × Component} : Branch s b rest → Branches s [b] rest
  | more {s t u rest : List Char} {b : Option Single × Component} {bs : List (Option Single × Component)} :
    Branch s b t → Layout t ('|' :: u) → Branches u bs rest → Branches s (b :: bs) rest

/-- A sequence of items, with or without a weight. -/
inductive Branch : List Char → Option Single × Component → List Char → Prop
  | sequence {s t u rest : List Char} {w : Option Single} {cs : List Component} {c : Component} :
    Layout s t → Weight t w u → Items u cs rest → Listing cs c → Branch s (w, c) rest

/-- Items one after the other. -/
inductive Items : List Char → List Component → List Char → Prop
  | last {s t rest : List Char} {c : Component} : Layout s t → Repetition t c rest → Items s [c] rest
  | more {s t u rest : List Char} {c : Component} {cs : List Component} :
    Layout s t → Repetition t c u → Items u cs rest → Items s (c :: cs) rest

/-- A unit with postfix operators right behind it. -/
inductive Repetition : List Char → Component → List Char → Prop
  | once {s rest : List Char} {c : Component} : Unit s c rest → Repetition s c rest
  | star {s rest : List Char} {c : Component} : Repetition s c ('*' :: rest) → Repetition s c.zeroOrMore rest
  | plus {s rest : List Char} {c : Component} : Repetition s c ('+' :: rest) → Repetition s c.oneOrMore rest

/-- A component without operators. -/
inductive Unit : List Char → Component → List Char → Prop
  | group {s t rest : List Char} {c : Component} :
    Expansion s c t → Layout t (')' :: rest) → Unit ('(' :: s) c rest
  | bracket {s t rest : List Char} {c : Component} :
    Expansion s c t → Layout t (']' :: rest) → Unit ('[' :: s) c.optional rest
  | name {s cs rest : List Char} {c : Component} :
    Run isReferenceChar s cs ('>' :: rest) → Name cs c → Unit ('<' :: s) c rest
  | tag {s cs rest : List Char} :
    Escaped '}' s cs rest → Unit ('{' :: s) (.tag (String.ofList (Text.trim cs))) rest
  | quoted {s cs rest : List Char} : Escaped '"' s cs rest → Unit ('"' :: s) (.token (String.ofList cs)) rest
  | bare {s cs rest : List Char} : Run isBare s cs rest → Unit s (.token (String.ofList cs)) rest

end

/-! ## Grammar texts -/

/-- A form several times, or not at all. -/
inductive Several {α : Type} (form : List Char → α → List Char → Prop) : List Char → List α → List Char → Prop
  | nil (s : List Char) : Several form s [] s
  | cons {s t rest : List Char} {a : α} {as : List α} :
    form s a t → Several form t as rest → Several form s (a :: as) rest

/-- A word of the header, with spaces and tabs before it. -/
inductive HeaderWord : List Char → String → List Char → Prop
  | word {s t cs rest : List Char} :
    Spaces s t → Run isHeaderChar t cs rest → HeaderWord s (String.ofList cs) rest

/-- The mark, the version, and at most two more words; the second of these is the locale. -/
inductive Header : List Char → Option String → List Char → Prop
  | words {s t u v rest : List Char} {version : String} {words : List String} :
    Layout s ("#JSGF".toList ++ t) → HeaderWord t version u → Several HeaderWord u words v → words.length ≤ 2 →
    Spaces v (';' :: rest) → Header s words[1]? rest

/-- The declaration of the name of the grammar. -/
inductive Declaration : List Char → String → List Char → Prop
  | name {s t u v cs rest : List Char} :
    Layout s ("grammar".toList ++ t) → Layout t u → Run isGrammarNameChar u cs v → Layout v (';' :: rest) →
    Declaration s (String.ofList cs) rest

/-- An import. -/
inductive Import : List Char → String → List Char → Prop
  | name {s t u v cs rest : List Char} :
    Layout s ("import".toList ++ t) → Layout t ('<' :: u) → Run isImportChar u cs ('>' :: v) →
    Layout v (';' :: rest) → Import s (String.ofList cs) rest

/-- The word that says whether a rule is public. Without one it is private. -/
inductive Visibility : List Char → Bool → List Char → Prop
  | unsaid (s : List Char) : Visibility s false s
  | saidPublic (rest : List Char) : Visibility ("public".toList ++ rest) true rest
  | saidPrivate (rest : List Char) : Visibility ("private".toList ++ rest) false rest

/-- The definition of a rule. -/
inductive Definition : List Char → Rule → List Char → Prop
  | rule {s t u v w x y cs rest : List Char} {isPublic : Bool} {body : Component} :
    Layout s t → Visibility t isPublic u → Layout u ('<' :: v) → Run isRuleNameChar v cs ('>' :: w) →
    Layout w ('=' :: x) → Expansion x body y → Layout y (';' :: rest) →
    Definition s ⟨String.ofList cs, isPublic, body⟩ rest

/-- A whole grammar text. -/
inductive Document : List Char → Jsgf.Document → Prop
  | parts {s t u v w : List Char} {locale : Option String} {name : String} {imports : List String}
    {rules : List Rule} : Header s locale t → Declaration t name u → Several Import u imports v →
    Several Definition v rules w → Layout w [] → Document s ⟨name, locale, imports, rules⟩

end Written

open Written Reader

variable {s t u cs rest : List Char}

/-! ## Leaves -/

theorem Written.Layout.trans (h : Layout s t) (h' : Layout t u) : Layout s u := by
  induction h with
  | none => exact h'
  | blank hblank _ ih => exact .blank hblank (ih h')
  | lineComment hcs hends _ ih => exact .lineComment hcs hends (ih h')
  | blockComment hcs _ ih => exact .blockComment hcs (ih h')

theorem escaped_of_unescape {close : Char} (h : unescape close s = .ok (cs, rest)) : Escaped close s cs rest := by
  induction s using unescape.induct close generalizing cs with
  | case1 => cases h
  | case2 s =>
    rw [unescape.eq_def] at h
    simp only [↓reduceIte, Except.ok.injEq, Prod.mk.injEq] at h
    obtain ⟨rfl, rfl⟩ := h
    exact .closing s
  | case3 hclose => simp [unescape, hclose] at h
  | case4 c ds hclose ih =>
    simp only [unescape, hclose, ↓reduceIte] at h
    cases hds : unescape close ds with
    | error e => rw [hds] at h; cases h
    | ok x =>
      rw [hds] at h
      cases h
      by_cases hc : c = close ∨ c = '\\'
      · rw [if_pos hc]
        exact .escape hc (ih hds)
      · rw [if_neg hc]
        exact .backslash (not_or.mp hc).1 (not_or.mp hc).2 (ih hds)
  | case5 c ds hclose hback ih =>
    rw [unescape.eq_def] at h
    simp only [hclose, hback, ↓reduceIte] at h
    cases hds : unescape close ds with
    | error e => rw [hds] at h; cases h
    | ok x =>
      rw [hds] at h
      cases h
      exact .plain hclose hback (ih hds)

theorem unescape_of_escaped {close : Char} (hclose : close ≠ '\\') (h : Escaped close s cs rest) :
    unescape close s = .ok (cs, rest) := by
  induction h with
  | closing rest =>
    rw [unescape.eq_def]
    simp
  | plain hc hback _ ih =>
    rw [unescape.eq_def]
    simp [hc, hback, ih, Except.map]
  | escape hc _ ih =>
    rw [unescape]
    simp [hclose.symm, ih, hc, Except.map]
  | backslash hc hback _ ih =>
    rw [unescape]
    simp [hclose.symm, ih, hc, hback, Except.map]

/-- Escaped text is read as it is written. -/
theorem unescape_eq_ok_iff {close : Char} (hclose : close ≠ '\\') :
    unescape close s = .ok (cs, rest) ↔ Escaped close s cs rest :=
  ⟨escaped_of_unescape, unescape_of_escaped hclose⟩

theorem number_of_read? {d : Decimal} (h : Decimal.read? cs = some d) : Number cs d := by
  have hcs : cs.takeWhile Char.isDigit ++ cs.dropWhile Char.isDigit = cs := List.takeWhile_append_dropWhile
  have hwhole : ∀ c ∈ cs.takeWhile Char.isDigit, c.isDigit = true := fun c hc => List.mem_takeWhile_imp hc
  dsimp only [Decimal.read?] at h
  split at h
  · rename_i hrest
    rw [hrest, List.append_nil] at hcs
    rw [hcs] at h hwhole
    split at h
    · cases h
    · rename_i hne
      cases h
      exact .whole hwhole (by simpa using hne)
  · rename_i c fraction hrest
    split at h
    · rename_i hfraction
      simp only [Bool.and_eq_true, beq_iff_eq, List.all_eq_true, Bool.not_eq_true', Bool.and_eq_false_iff,
        List.isEmpty_eq_false_iff] at hfraction
      obtain ⟨⟨rfl, hdigits⟩, hne⟩ := hfraction
      cases h
      rw [hrest] at hcs
      generalize cs.takeWhile Char.isDigit = whole at hcs hwhole hne ⊢
      exact hcs ▸ .fraction hwhole hdigits (by simpa using hne)
    · cases h

theorem read?_of_number {d : Decimal} (h : Number cs d) : Decimal.read? cs = some d := by
  cases h with
  | whole hcs hne => exact Decimal.read?_digits hcs hne
  | @fraction cs ds hcs hds hne =>
    have hpoint : Stops Char.isDigit ('.' :: ds) := stops_cons (by decide) ds
    obtain ⟨htake, hdrop⟩ := takeWhile_append hcs hpoint
    have hall : ds.all Char.isDigit = true := List.all_eq_true.mpr hds
    have hsome : (cs.isEmpty && ds.isEmpty) = false := by rcases hne with h | h <;> simp [h]
    simp [Decimal.read?, htake, hdrop, hall, hsome]

/-- Numbers are read as they are written. -/
theorem read?_eq_some_iff {d : Decimal} : Decimal.read? cs = some d ↔ Number cs d :=
  ⟨number_of_read?, read?_of_number⟩

/-- Names stand for what they are taken for. -/
theorem namedComponent_eq_iff {c : Component} : namedComponent cs = c ↔ Name cs c := by
  constructor
  · rintro rfl
    unfold namedComponent
    split
    · rename_i hnull
      exact hnull ▸ .null
    · rename_i hnull
      split
      · rename_i hvoid
        exact hvoid ▸ .void
      · rename_i hvoid
        split
        · rename_i grammar rule hsplit
          obtain ⟨rfl, hrule⟩ := splitAtLastDot_eq_some hsplit
          exact .qualified grammar hrule
        · rename_i hsplit
          exact .plain hnull hvoid (splitAtLastDot_eq_none hsplit)
  · intro h
    cases h with
    | null => rfl
    | void => rfl
    | plain hnull hvoid hdot =>
      rw [namedComponent, if_neg hnull, if_neg hvoid, splitAtLastDot_of_not_mem hdot]
    | @qualified grammar rule hrule =>
      have hmem : '.' ∈ grammar ++ '.' :: rule := by simp
      have hnull : grammar ++ '.' :: rule ≠ "NULL".toList := fun h => absurd (h ▸ hmem) (by decide)
      have hvoid : grammar ++ '.' :: rule ≠ "VOID".toList := fun h => absurd (h ▸ hmem) (by decide)
      rw [namedComponent, if_neg hnull, if_neg hvoid, splitAtLastDot_append grammar hrule]

/-! ## Choices and sequences -/

/-- Items stand together for what they are taken for. -/
theorem oneOrSequence_eq_iff {xs : List Component} {c : Component} (hne : xs ≠ []) :
    oneOrSequence xs = c ↔ Listing xs c := by
  match xs, hne with
  | [x], _ =>
    constructor
    · rintro rfl
      exact .single x
    · rintro (_ | h)
      · rfl
      · cases Nat.not_succ_le_self 1 h
  | x :: y :: xs, _ =>
    constructor
    · rintro rfl
      exact .several (by simp)
    · rintro (_ | _)
      rfl

variable {bs : List (Option Single × Component)} {c : Component}

/-- Branches without weights are their components. -/
theorem eq_map_none (h : ∀ w ∈ bs.map Prod.fst, w = none) : bs = (bs.map Prod.snd).map fun c => (none, c) := by
  rw [List.map_map]
  exact (List.map_id bs).symm.trans (List.map_congr_left fun b hb => Prod.ext (h b.1 (List.mem_map_of_mem hb)) rfl)

/-- Branches that all have a weight are pairs of these and their components. -/
theorem exists_map_some {ws : List Single} (h : bs.map Prod.fst = ws.map some) :
    ∃ xs : List (Single × Component), bs = xs.map (fun x => (some x.1, x.2)) ∧ xs.map Prod.fst = ws := by
  induction ws generalizing bs with
  | nil => exact ⟨[], by simpa using h, rfl⟩
  | cons w ws ih =>
    obtain ⟨⟨v, c⟩, bs, rfl⟩ := List.exists_cons_of_ne_nil (l := bs) (by rintro rfl; cases h)
    obtain ⟨rfl, hbs⟩ := List.cons.inj h
    obtain ⟨xs, rfl, rfl⟩ := ih hbs
    exact ⟨(w, c) :: xs, rfl, rfl⟩

theorem choice_of_ofBranches (hne : bs ≠ []) (h : ofBranches bs = some c) : Choice bs c := by
  unfold ofBranches at h
  split at h
  · cases h
    exact .single c
  · rename_i hsingle
    obtain ⟨common, hcommon, rfl⟩ := Option.map_eq_some_iff.mp h
    rcases commonWeights_eq_some hcommon with ⟨rfl, hnone⟩ | ⟨ws, rfl, -, hws⟩
    · have hbs := eq_map_none hnone
      generalize bs.map Prod.snd = cs at hbs ⊢
      subst hbs
      match cs, hne, hsingle with
      | [c], _, hsingle => exact absurd rfl (hsingle c)
      | _ :: _ :: _, _, _ => exact .plain (by simp)
    · obtain ⟨xs, rfl, rfl⟩ := exists_map_some hws
      rw [List.map_map]
      exact .weighted (by simpa using hne)

theorem ofBranches_of_choice (h : Choice bs c) : ofBranches bs = some c := by
  cases h with
  | single => rfl
  | @plain cs hlength =>
    rw [ofBranches_plain (List.ne_nil_of_length_pos (by omega)), Component.choice_plain (by omega)]
  | @weighted xs hne =>
    have hfirst : (xs.map fun x => (some x.1, x.2)).map Prod.fst = (xs.map Prod.fst).map some := by simp
    have hsecond : (xs.map fun x => (some x.1, x.2)).map Prod.snd = xs.map Prod.snd := by simp
    unfold ofBranches
    split
    · rename_i hsingle
      obtain ⟨x, xs, rfl⟩ := List.exists_cons_of_ne_nil hne
      cases hsingle
    · rw [hfirst, hsecond, commonWeights_some (by simpa using hne)]
      rfl

/-- Branches stand together for what they are taken for. -/
theorem ofBranches_eq_some_iff (hne : bs ≠ []) : ofBranches bs = some c ↔ Choice bs c :=
  ⟨choice_of_ofBranches hne, ofBranches_of_choice⟩

end SpeechGrammar.Jsgf
