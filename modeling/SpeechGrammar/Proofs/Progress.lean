import SpeechGrammar.Proofs.WrittenAsRead

/-!
# Reading comes to an end

Two things in the readers could go on for ever: a part that is repeated, and an expansion within an expansion. The
definitions cut both off, a repetition by the length of the text and an expansion by its depth. Neither bound is ever
met, since each part that is repeated leaves a shorter end of the text, and so does the bracket before an expansion.

So a repetition is the only solution of the equation of an unbounded loop (**`Reader.eq_many_iff`**), and expansions are
the only solution of their recursion (**`Reader.eq_expansion_iff`**). Every text is read as a document, or reading stops
at a place within the text (**`reading_ends`**).
-/

namespace SpeechGrammar.Jsgf

namespace Reader

variable {α β : Type} {p q : Reader α} {f f' : α → Reader β} {r : Reader β} {g : α → β} {s t : List Char}
  {inner inner' : Reader Component}

/-! ## Readers that agree on a text -/

theorem bind_congr_left (h : p s = q s) : (p >>= f) s = (q >>= f) s := by
  show (p s >>= fun x => f x.1 x.2) = (q s >>= fun x => f x.1 x.2)
  rw [h]

theorem bind_congr_right (h : ∀ a t, p s = .ok (a, t) → f a t = f' a t) : (p >>= f) s = (p >>= f') s := by
  show (p s >>= fun x => f x.1 x.2) = (p s >>= fun x => f' x.1 x.2)
  cases hp : p s with
  | error e => rfl
  | ok x => exact h x.1 x.2 hp

theorem map_congr (h : p s = q s) : (g <$> p) s = (g <$> q) s := by
  show (p s >>= fun x => pure (g x.1, x.2)) = (q s >>= fun x => pure (g x.1, x.2))
  rw [h]

theorem cut_congr (h : p s = q s) : cut p s = cut q s := by
  rw [cut, cut, h]

theorem expecting_congr {e : Expectation} (h : p s = q s) : expecting e p s = expecting e q s := by
  rw [expecting, expecting, h]

theorem orElse_congr {p' q' : Reader α} (hp : p s = p' s) (hq : q s = q' s) : orElse p q s = orElse p' q' s := by
  rw [orElse, orElse, hp, hq]

theorem again_congr {more more' : Reader (List α)} (hp : p s = q s)
    (hmore : ∀ a t, p s = .ok (a, t) → more t = more' t) : again p more s = again q more' s := by
  rw [again, again, ← hp]
  split
  · rfl
  · rename_i a t ha
    rw [hmore a t ha]

/-! ## Loops -/

/-- A reader that takes something takes nothing off the empty text. -/
theorem Takes.ne_ok_nil (hp : Takes p 1) {a : α} : p [] ≠ .ok (a, t) := fun h => by
  have hlength := (hp h).2
  simp at hlength

/-- Any two bounds that are as long as the text do. -/
theorem manyWithin_eq (hp : Takes p 1) : ∀ {bound bound' s : List Char}, s.length ≤ bound.length →
    s.length ≤ bound'.length → manyWithin p bound s = manyWithin p bound' s
  | [], [], _, _, _ => rfl
  | [], _ :: _, s, h, _ | _ :: _, [], s, _, h => by
    obtain rfl : s = [] := List.eq_nil_of_length_eq_zero (Nat.le_zero.mp h)
    exact again_congr rfl fun _ _ ha => absurd ha hp.ne_ok_nil
  | _ :: bound, _ :: bound', s, h, h' => by
    refine again_congr rfl fun _ _ ha => ?_
    have hlength := (hp ha).2
    rw [List.length_cons] at h h'
    exact manyWithin_eq hp (by omega) (by omega)

/-- A repetition goes on with a repetition. -/
theorem many_eq (hp : Takes p 1) (s : List Char) : many p s = again p (many p) s :=
  calc many p s = manyWithin p ('.' :: s) s := manyWithin_eq hp (Nat.le_refl _) (Nat.le_succ _)
    _ = again p (many p) s := again_congr rfl fun _ _ ha => manyWithin_eq hp (hp ha).1.length_le (Nat.le_refl _)

/-- **A repetition is the unbounded loop**, which nothing else can be, as each round leaves a shorter text. -/
theorem eq_many_iff (hp : Takes p 1) {loop : Reader (List α)} : (∀ s, loop s = again p loop s) ↔ loop = many p := by
  constructor
  · intro hloop
    funext s
    induction hn : s.length using Nat.strongRecOn generalizing s with
    | _ n ih =>
      subst hn
      rw [hloop, many_eq hp]
      exact again_congr rfl fun a t ha => ih t.length (hp ha).2 t rfl
  · rintro rfl
    exact many_eq hp

/-- A loop comes to a text on which its part fails, after no more rounds than the text has characters. -/
theorem exists_chain_fails (hp : Takes p 1) (s : List Char) :
    ∃ as t, Chain p s as t ∧ as.length + t.length ≤ s.length ∧ Fails p t := by
  suffices hchain : ∃ as t, Chain p s as t ∧ Fails p t by
    obtain ⟨as, t, hchain, hfails⟩ := hchain
    exact ⟨as, t, hchain, hchain.length_le hp, hfails⟩
  induction hn : s.length using Nat.strongRecOn generalizing s with
  | _ n ih =>
    subst hn
    cases hs : p s with
    | error e => exact ⟨[], s, .nil s, e, hs⟩
    | ok x =>
      obtain ⟨as, t, hchain, hfails⟩ := ih x.2.length (hp hs).2 x.2 rfl
      exact ⟨x.1 :: as, t, .cons hs hchain, hfails⟩

/-- Repetitions agree on a text if their parts agree on all ends of it. -/
theorem many_congr (hp : Takes p 0) (h : ∀ t, t <:+ s → p t = q t) : many p s = many q s := by
  have hwithin (bound : List Char) : ∀ t, t <:+ s → manyWithin p bound t = manyWithin q bound t := by
    induction bound with
    | nil => exact fun t ht => again_congr (h t ht) fun _ _ _ => rfl
    | cons c bound ih => exact fun t ht => again_congr (h t ht) fun a u ha => ih u ((hp ha).1.trans ht)
  exact hwithin s s List.suffix_rfl

theorem atLeastOnce_congr (hp : Takes p 0) (h : ∀ t, t <:+ s → p t = q t) : atLeastOnce p s = atLeastOnce q s := by
  rw [atLeastOnce, atLeastOnce, bind_congr_left (h s List.suffix_rfl)]
  refine bind_congr_right fun a t ha => bind_congr_left ?_
  have ht : t <:+ s := (hp ((h s List.suffix_rfl).trans ha)).1
  exact many_congr hp fun u hu => h u (hu.trans ht)

/-! ## Nested expansions -/

/-- The readers agree on all shorter ends of the text. -/
def AgreeBelow (inner inner' : Reader Component) (s : List Char) : Prop :=
  ∀ t, t <:+ s → t.length < s.length → inner t = inner' t

theorem AgreeBelow.of_suffix (h : AgreeBelow inner inner' s) (ht : t <:+ s) : AgreeBelow inner inner' t :=
  fun u hu hlength => h u (hu.trans ht) (Nat.lt_of_lt_of_le hlength ht.length_le)

theorem enclosed_congr (h : AgreeBelow inner inner' s) (opening closing : Char) :
    enclosed opening closing inner s = enclosed opening closing inner' s := by
  refine bind_congr_right fun _ t hopen => bind_congr_left (cut_congr ?_)
  obtain ⟨ht, hlength⟩ := takes_char opening hopen
  exact h t ht hlength

/-- **A unit reads expansions only in shorter ends of its text**: nothing else matters to it. -/
theorem unit_congr (h : AgreeBelow inner inner' s) : unit inner s = unit inner' s :=
  orElse_congr (enclosed_congr h _ _) (orElse_congr (map_congr (enclosed_congr h _ _)) rfl)

theorem item_congr (h : AgreeBelow inner inner' s) :
    (layout *> repetition inner) s = (layout *> repetition inner') s :=
  bind_congr_right fun _ _ hlayout => bind_congr_left (unit_congr (h.of_suffix (takes_layout hlayout).1))

theorem sequence_congr (hinner : Takes inner 0) (h : AgreeBelow inner inner' s) :
    sequence inner s = sequence inner' s := by
  refine bind_congr_left (expecting_congr (atLeastOnce_congr ?_ fun t ht => item_congr (h.of_suffix ht)))
  exact (takes_item hinner).weaken (by decide)

theorem branch_congr (hinner : Takes inner 0) (h : AgreeBelow inner inner' s) : branch inner s = branch inner' s := by
  refine bind_congr_right fun _ t hlayout => bind_congr_right fun _ u hweight => bind_congr_left ?_
  have hu : u <:+ s := (takes_weight.optionally hweight).1.trans (takes_layout hlayout).1
  exact sequence_congr hinner (h.of_suffix hu)

theorem nextBranch_congr (hinner : Takes inner 0) (h : AgreeBelow inner inner' s) :
    (layout *> char '|' *> cut (branch inner)) s = (layout *> char '|' *> cut (branch inner')) s := by
  refine bind_congr_right fun _ t hbar => cut_congr (branch_congr hinner (h.of_suffix ?_))
  exact ((takes_layout.seqRight (takes_char '|')) hbar).1

theorem branches_congr (hinner : Takes inner 0) (h : AgreeBelow inner inner' s) :
    branches inner s = branches inner' s := by
  have hfirst := branch_congr hinner h
  rw [branches, branches, bind_congr_left hfirst]
  refine bind_congr_right fun first t ht => bind_congr_left ?_
  have hsuffix : t <:+ s := (takes_branch hinner (hfirst.trans ht)).1
  exact many_congr ((takes_nextBranch hinner).weaken (by decide)) fun u hu =>
    nextBranch_congr hinner (h.of_suffix (hu.trans hsuffix))

/-- The depth that a text may need is its length. -/
theorem expansionWithin_eq {n : Nat} (hn : s.length ≤ n) : expansionWithin n s = expansion s := by
  induction hlength : s.length using Nat.strongRecOn generalizing s n with
  | _ length ih =>
    subst hlength
    cases s with
    | nil => cases n <;> rfl
    | cons c s =>
      obtain ⟨n, rfl⟩ := Nat.exists_eq_add_of_le' (Nat.le_trans (Nat.succ_le_succ (Nat.zero_le _)) hn)
      refine branches_congr (takes_nested n) fun t _ ht => ?_
      rw [List.length_cons] at hn ht
      exact (ih t.length ht (by omega) rfl).trans (ih t.length ht (by omega) rfl).symm

theorem expansion_eq (s : List Char) : expansion s = branches expansion s := by
  cases s with
  | nil => rfl
  | cons c s =>
    refine branches_congr (takes_nested s.length) fun t _ ht => expansionWithin_eq ?_
    exact Nat.le_of_lt_succ ht

/-- **Expansions are what they are read as by the unbounded recursion**, which nothing else can be, as an expansion within
another one has a shorter text. -/
theorem eq_expansion_iff {q : Reader Component} : (∀ s, q s = branches q s) ↔ q = expansion := by
  constructor
  · intro hq
    funext s
    induction hn : s.length using Nat.strongRecOn generalizing s with
    | _ n ih =>
      subst hn
      rw [hq, expansion_eq]
      exact (branches_congr (takes_expansion.weaken (by decide)) fun t _ ht => (ih t.length ht t rfl).symm).symm
  · rintro rfl
    exact expansion_eq

/-! ## Where a reader stops -/

/-- With success or not, the reader stops at a place within the text. -/
structure StopsWithin (p : Reader α) : Prop where
  ok : Takes p 0
  error : ∀ ⦃s e⦄, p s = .error e → e.rest <:+ s

theorem error_of_bind {e : Failure} (h : (p >>= f) s = .error e) :
    p s = .error e ∨ ∃ a t, p s = .ok (a, t) ∧ f a t = .error e := by
  cases hp : p s with
  | error e' =>
    change (p s >>= fun x => f x.1 x.2) = _ at h
    rw [hp] at h
    cases h
    exact .inl rfl
  | ok x => exact .inr ⟨x.1, x.2, rfl, by rwa [bind_of_ok hp] at h⟩

theorem stopsWithin_pure (a : α) : StopsWithin (pure a) := ⟨takes_pure a, nofun⟩

theorem stopsWithin_refuse : StopsWithin (refuse : Reader α) := by
  refine ⟨nofun, fun s e h => ?_⟩
  cases h
  exact List.suffix_rfl

theorem stopsWithin_abort (expected : List Expectation) : StopsWithin (abort expected : Reader α) := by
  refine ⟨nofun, fun s e h => ?_⟩
  cases h
  exact List.suffix_rfl

theorem StopsWithin.bind (hp : StopsWithin p) (hf : ∀ a, StopsWithin (f a)) : StopsWithin (p >>= f) := by
  refine ⟨hp.ok.bind fun a => (hf a).ok, fun s e h => ?_⟩
  rcases error_of_bind h with he | ⟨a, t, ha, he⟩
  · exact hp.error he
  · exact ((hf a).error he).trans (hp.ok ha).1

theorem StopsWithin.seqRight (hp : StopsWithin p) (hr : StopsWithin r) : StopsWithin (p *> r) := hp.bind fun _ => hr

theorem StopsWithin.map (hp : StopsWithin p) : StopsWithin (g <$> p) := hp.bind fun a => stopsWithin_pure (g a)

theorem StopsWithin.cut (hp : StopsWithin p) : StopsWithin (cut p) := by
  refine ⟨hp.ok.cut, fun s e h => ?_⟩
  unfold Reader.cut at h
  split at h <;> cases h
  rename_i e he
  exact hp.error (e := e) he

theorem StopsWithin.expecting {e : Expectation} (hp : StopsWithin p) : StopsWithin (expecting e p) := by
  refine ⟨hp.ok.expecting, fun s e h => ?_⟩
  unfold Reader.expecting at h
  split at h <;> cases h
  rename_i e he
  exact hp.error (e := e) he

theorem StopsWithin.orElse (hp : StopsWithin p) (hq : StopsWithin q) : StopsWithin (orElse p q) := by
  refine ⟨hp.ok.orElse hq.ok, fun s e h => ?_⟩
  unfold Reader.orElse at h
  split at h
  · rename_i he
    split at h
    · cases h
      exact hp.error he
    · exact hq.error h
  · cases h

theorem StopsWithin.optionally (hp : StopsWithin p) : StopsWithin (optionally p) :=
  hp.map.orElse (stopsWithin_pure none)

theorem StopsWithin.again {more : Reader (List α)} (hp : StopsWithin p) (hmore : StopsWithin more) :
    StopsWithin (again p more) := by
  refine ⟨hp.ok.again hmore.ok, fun s e h => ?_⟩
  unfold Reader.again at h
  split at h
  · rename_i he
    split at h
    · cases h
      exact hp.error he
    · cases h
  · rename_i ha
    split at h
    · rename_i he
      cases h
      exact (hmore.error he).trans (hp.ok ha).1
    · cases h

theorem StopsWithin.many (hp : StopsWithin p) : StopsWithin (many p) := by
  have hwithin (bound : List Char) : StopsWithin (manyWithin p bound) := by
    induction bound with
    | nil => exact hp.again (stopsWithin_pure [])
    | cons c bound ih => exact hp.again ih
  exact ⟨hp.ok.many, fun s e h => (hwithin s).error h⟩

theorem StopsWithin.atMost (hp : StopsWithin p) (n : Nat) : StopsWithin (atMost p n) := by
  induction n with
  | zero => exact stopsWithin_pure []
  | succ n ih => exact hp.again ih

theorem StopsWithin.atLeastOnce (hp : StopsWithin p) : StopsWithin (atLeastOnce p) :=
  hp.bind fun _ => hp.many.bind fun _ => stopsWithin_pure _

theorem stopsWithin_literal (cs : List Char) : StopsWithin (literal cs) := by
  refine ⟨(takes_literal cs).weaken (Nat.zero_le _), fun s e h => ?_⟩
  unfold literal at h
  split at h
  · cases h
  · exact stopsWithin_refuse.error h

theorem stopsWithin_char (c : Char) : StopsWithin (char c) := stopsWithin_literal [c]

theorem stopsWithin_run {accepts : Char → Bool} : StopsWithin (run accepts) := by
  refine ⟨takes_run.weaken (by decide), fun s e h => ?_⟩
  unfold run at h
  split at h
  · exact stopsWithin_refuse.error h
  · cases h

theorem stopsWithin_skip {accepts : Char → Bool} : StopsWithin (skip accepts) := ⟨takes_skip, nofun⟩

/-- A look ahead. -/
theorem stopsWithin_test (accepts : List Char → Bool) :
    StopsWithin (fun s => if accepts s then .ok ((), s) else refuse s) := by
  refine ⟨fun s a t h => ?_, fun s e h => ?_⟩ <;> split at h
  · cases h
    exact ⟨List.suffix_rfl, Nat.le_refl _⟩
  · cases h
  · cases h
  · exact stopsWithin_refuse.error h

theorem stopsWithin_layout : StopsWithin layout := by
  have hblanks : StopsWithin blanks := stopsWithin_run.bind fun _ => stopsWithin_pure _
  have hline : StopsWithin lineComment :=
    (stopsWithin_literal _).bind fun _ => stopsWithin_skip.bind fun _ => stopsWithin_test startsLineEnding
  have hblock : StopsWithin blockComment := by
    refine ⟨takes_blockComment.weaken (by decide), fun s e h => ?_⟩
    rcases error_of_bind h with he | ⟨_, t, ht, he⟩
    · exact (stopsWithin_literal _).error he
    · split at he
      · cases he
      · exact (stopsWithin_refuse.error he).trans (takes_literal _ ht).1
  exact (hblanks.orElse (hline.orElse hblock)).many.bind fun _ => stopsWithin_pure _

theorem stopsWithin_closedBy (close : Char) (expected : List Expectation) : StopsWithin (closedBy close expected) := by
  refine ⟨(takes_closedBy close expected).weaken (by decide), fun s e h => ?_⟩
  unfold closedBy at h
  split at h
  · cases h
  · cases h
    exact List.nil_suffix
  · cases h
    exact List.nil_suffix

theorem stopsWithin_enclosed (hinner : StopsWithin inner) (opening closing : Char) :
    StopsWithin (enclosed opening closing inner) :=
  (stopsWithin_char opening).bind fun _ => hinner.cut.bind fun _ => stopsWithin_layout.bind fun _ =>
    (stopsWithin_char closing).cut.bind fun _ => stopsWithin_pure _

theorem stopsWithin_unit (hinner : StopsWithin inner) : StopsWithin (unit inner) := by
  have hreference : StopsWithin reference :=
    StopsWithin.expecting ((stopsWithin_char '<').bind fun _ => stopsWithin_run.cut.bind fun _ =>
      (stopsWithin_char '>').cut.bind fun _ => stopsWithin_pure _)
  have htag : StopsWithin tag :=
    (stopsWithin_char '{').bind fun _ => (stopsWithin_closedBy _ _).bind fun _ => stopsWithin_pure _
  have hquoted : StopsWithin quoted :=
    (stopsWithin_char '"').bind fun _ => (stopsWithin_closedBy _ _).bind fun _ => stopsWithin_pure _
  have hbare : StopsWithin bareToken := stopsWithin_run.bind fun _ => stopsWithin_pure _
  exact (stopsWithin_enclosed hinner _ _).orElse ((stopsWithin_enclosed hinner _ _).map.orElse
    (hreference.orElse (htag.orElse (hquoted.orElse hbare))))

theorem stopsWithin_sequence (hinner : StopsWithin inner) : StopsWithin (sequence inner) := by
  have hoperator : StopsWithin postfixOperator :=
    ((stopsWithin_char '*').seqRight (stopsWithin_pure _)).orElse
      ((stopsWithin_char '+').seqRight (stopsWithin_pure _))
  have hrepetition : StopsWithin (repetition inner) :=
    (stopsWithin_unit hinner).bind fun _ => hoperator.many.bind fun _ => stopsWithin_pure _
  exact (stopsWithin_layout.seqRight hrepetition).atLeastOnce.expecting.bind fun _ => stopsWithin_pure _

theorem stopsWithin_branch (hinner : StopsWithin inner) : StopsWithin (branch inner) := by
  have hvalue : StopsWithin weightValue := by
    refine stopsWithin_run.bind fun cs => ?_
    cases Decimal.read? cs with
    | none => exact stopsWithin_refuse
    | some d => exact stopsWithin_pure _
  have hweight : StopsWithin weight :=
    (stopsWithin_char '/').bind fun _ => hvalue.bind fun _ => (stopsWithin_char '/').cut.bind fun _ =>
      stopsWithin_pure _
  exact stopsWithin_layout.bind fun _ => hweight.optionally.bind fun _ => (stopsWithin_sequence hinner).bind fun _ =>
    stopsWithin_pure _

theorem stopsWithin_branches (hinner : StopsWithin inner) : StopsWithin (branches inner) := by
  have hnext : StopsWithin (layout *> char '|' *> cut (branch inner)) :=
    (stopsWithin_layout.seqRight (stopsWithin_char '|')).seqRight (stopsWithin_branch hinner).cut
  refine (stopsWithin_branch hinner).bind fun first => hnext.many.bind fun others => ?_
  cases ofBranches (first :: others) with
  | none => exact stopsWithin_abort []
  | some c => exact stopsWithin_pure c

theorem stopsWithin_expansion : StopsWithin expansion := by
  have hwithin (n : Nat) : StopsWithin (expansionWithin n) := by
    induction n with
    | zero => exact stopsWithin_refuse.expecting
    | succ n ih => exact stopsWithin_branches ih
  exact ⟨takes_expansion.weaken (by decide), fun s e h => (hwithin s.length).error h⟩

theorem stopsWithin_header : StopsWithin header := by
  have hword : StopsWithin headerWord := stopsWithin_run.map
  exact stopsWithin_layout.bind fun _ => (stopsWithin_literal _).cut.expecting.bind fun _ =>
    (stopsWithin_skip.seqRight (hword.cut.seqRight (stopsWithin_pure ()))).expecting.bind fun _ =>
      ((stopsWithin_skip.seqRight hword).atMost 2).bind fun _ => stopsWithin_skip.bind fun _ =>
        (stopsWithin_char ';').cut.bind fun _ => stopsWithin_pure _

theorem stopsWithin_declaration : StopsWithin declaration :=
  stopsWithin_layout.bind fun _ => (stopsWithin_literal _).cut.expecting.bind fun _ => stopsWithin_layout.bind fun _ =>
    stopsWithin_run.cut.expecting.bind fun _ => stopsWithin_layout.bind fun _ => (stopsWithin_char ';').cut.bind fun _ =>
      stopsWithin_pure _

theorem stopsWithin_importStatement : StopsWithin importStatement := by
  have hname : StopsWithin importedName :=
    (stopsWithin_char '<').bind fun _ => stopsWithin_run.bind fun _ => (stopsWithin_char '>').bind fun _ =>
      stopsWithin_pure _
  exact stopsWithin_layout.bind fun _ => (stopsWithin_literal _).bind fun _ => stopsWithin_layout.bind fun _ =>
    hname.cut.expecting.bind fun _ => stopsWithin_layout.bind fun _ => (stopsWithin_char ';').cut.bind fun _ =>
      stopsWithin_pure _

theorem stopsWithin_ruleDefinition : StopsWithin ruleDefinition := by
  have hvisibility : StopsWithin visibility :=
    ((stopsWithin_literal _).seqRight (stopsWithin_pure _)).orElse
      ((stopsWithin_literal _).seqRight (stopsWithin_pure _))
  have hopening (isPublic : Option Bool) : StopsWithin (opening isPublic) := by
    unfold opening
    split
    · exact (stopsWithin_char '<').cut
    · exact stopsWithin_char '<'
  have hdefinition (isPublic : Option Bool) : StopsWithin (definitionFromName isPublic) :=
    stopsWithin_run.cut.expecting.bind fun _ => (stopsWithin_char '>').cut.bind fun _ => stopsWithin_layout.bind
      fun _ => (stopsWithin_char '=').cut.bind fun _ => stopsWithin_expansion.cut.expecting.bind fun _ =>
        (stopsWithin_layout.seqRight (stopsWithin_char ';').cut).expecting.bind fun _ => stopsWithin_pure _
  rw [ruleDefinition_eq]
  exact stopsWithin_layout.bind fun _ => hvisibility.optionally.bind fun _ => stopsWithin_layout.bind fun _ =>
    (hopening _).bind fun _ => hdefinition _

theorem stopsWithin_document : StopsWithin document :=
  stopsWithin_header.bind fun _ => stopsWithin_declaration.bind fun _ => stopsWithin_importStatement.many.bind
    fun _ => stopsWithin_ruleDefinition.many.bind fun _ => stopsWithin_layout.bind fun _ =>
      (stopsWithin_test List.isEmpty).bind fun _ => stopsWithin_pure _

/-! ## The whole text -/

/-- The parts of a grammar text that are read again and again: pieces of layout, words of the header, imports, rules,
branches, items, and postfix operators. -/
inductive Repeated : {α : Type} → Reader α → Prop
  | layoutPart : Repeated (orElse blanks (orElse lineComment blockComment))
  | headerWord : Repeated (spaces *> headerWord)
  | importStatement : Repeated importStatement
  | ruleDefinition : Repeated ruleDefinition
  | branch : Repeated (layout *> char '|' *> cut (branch expansion))
  | item : Repeated (layout *> repetition expansion)
  | postfixOperator : Repeated postfixOperator

/-- Each of them takes at least one character. -/
theorem Repeated.takes {p : Reader α} (h : Repeated p) : Takes p 1 := by
  have hexpansion : Takes expansion 0 := takes_expansion.weaken (by decide)
  cases h with
  | layoutPart => exact takes_layoutPart
  | headerWord => exact takes_skip.seqRight takes_run.map
  | importStatement => exact takes_importStatement
  | ruleDefinition => exact takes_ruleDefinition
  | branch => exact takes_nextBranch hexpansion
  | item => exact takes_item hexpansion
  | postfixOperator => exact takes_postfixOperator

end Reader

open Reader

/-- **Reading a text always goes forward, and it comes to an end.** What is repeated leaves a shorter end of the text each
time, so its loop comes to a text on which it fails, and no bound on the loop is ever met. A unit reads expansions only
in shorter ends of its text, so no bound on the depth is ever met. Every text is read as a document, or there is an error
at a place within it. -/
theorem reading_ends :
    (∀ (α : Type) (p : Reader α), Repeated p →
      (∀ s a t, p s = .ok (a, t) → t <:+ s ∧ t.length < s.length) ∧
      (∀ s, ∃ as t, Chain p s as t ∧ as.length + t.length ≤ s.length ∧ Fails p t) ∧
      ∀ loop : Reader (List α), (∀ s, loop s = again p loop s) ↔ loop = many p) ∧
    (∀ inner inner' s, (∀ t, t <:+ s → t.length < s.length → inner t = inner' t) → unit inner s = unit inner' s) ∧
    (∀ q : Reader Component, (∀ s, q s = branches q s) ↔ q = expansion) ∧
    ∀ source : String, (∃ doc, Document.parse source = .ok doc) ∨
      ∃ rest expected, rest <:+ source.toList ∧ Document.parse source = .error ⟨source.toList, rest, expected⟩ := by
  refine ⟨fun α p hp => ?_, fun _ _ _ => unit_congr, fun _ => eq_expansion_iff, fun source => ?_⟩
  · exact ⟨fun s a t h => hp.takes h, exists_chain_fails hp.takes, fun _ => eq_many_iff hp.takes⟩
  · unfold Document.parse
    cases hread : document source.toList with
    | ok x => exact .inl ⟨x.1, rfl⟩
    | error e => exact .inr ⟨e.rest, e.expected, stopsWithin_document.error hread, rfl⟩

-- a comment that is not closed is none, and so the group is not closed either
example : Document.parse "#JSGF V1.0; grammar g; <r> = (a /* b);" =
    .error ⟨"#JSGF V1.0; grammar g; <r> = (a /* b);".toList, "/* b);".toList, [.item, .expansion]⟩ := by
  cbv

end SpeechGrammar.Jsgf
