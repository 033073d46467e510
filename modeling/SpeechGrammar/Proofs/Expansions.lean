import SpeechGrammar.Jsgf.Expansion
import SpeechGrammar.Jsgf.Printer
import SpeechGrammar.Proofs.Readers

/-!
# What expansions give

A component that comes out of a text is normal (`Component.Normal`): no sequence has just one item, there is more than
one branch without weights, a repetition is one of three, and so on. Every reader of a part of an expansion keeps this
of what it is given by the reader of the expansions within it, so expansions are normal
(**`Reader.yields_expansionWithin`**), and they take at least one character (**`Reader.takes_expansionWithin`**).
-/

namespace SpeechGrammar

/-- The text of the reference without its brackets. -/
def Reference.inner (r : Reference) : List Char :=
  match r.grammar with
  | none => r.rule.toList
  | some g => g.toList ++ '.' :: r.rule.toList

theorem Reference.print_eq (r : Reference) : r.print = '<' :: (r.inner ++ ['>']) := by
  unfold Reference.print Reference.inner
  cases r.grammar <;> simp

/-- The name of the rule has no dot, and by itself it is neither empty nor one of the special names. -/
structure Reference.Normal (r : Reference) : Prop where
  chars : ∀ c ∈ r.inner, Jsgf.isReferenceChar c = true
  rule : '.' ∉ r.rule.toList
  plain : r.grammar = none → r.rule ≠ "" ∧ r.rule ≠ "NULL" ∧ r.rule ≠ "VOID"

/-- Not negative, not even a negative zero, and not a NaN. -/
def Single.IsWeight (x : Single) : Prop := x.signed = false ∧ x.isNaN = false

namespace Component

mutual

/-- What holds of components that come out of a text. -/
def Normal : Component → Prop
  | .token _ => True
  | .tag value => Text.trim value.toList = value.toList
  | .reference r => r.Normal
  | .sequence items => items.length ≠ 1 ∧ NormalAll items
  | .alternatives branches none => branches.length ≠ 1 ∧ NormalAll branches
  | .alternatives branches (some weights) =>
    branches ≠ [] ∧ weights.length = branches.length ∧ (∀ w ∈ weights, w.IsWeight) ∧ NormalAll branches
  | .count body min max probability =>
    ((min = 0 ∧ max = .finite 1) ∨ (min = 0 ∧ max = .indefinite) ∨ (min = 1 ∧ max = .indefinite)) ∧
      probability = none ∧ Normal body

/-- What holds of lists of components that come out of a text. -/
def NormalAll : List Component → Prop
  | [] => True
  | c :: cs => Normal c ∧ NormalAll cs

end

theorem normalAll_iff {cs : List Component} : NormalAll cs ↔ ∀ c ∈ cs, Normal c := by
  induction cs with
  | nil => simp [NormalAll]
  | cons c cs ih => simp [NormalAll, ih]

end Component

/-! ## Trimming -/

namespace Text

theorem dropWhile_of_prefix (cs : List Char) {ds : List Char} (h : ds <+: cs.dropWhile isBlank) :
    ds.dropWhile isBlank = ds := by
  cases ds with
  | nil => rfl
  | cons d ds =>
    obtain ⟨es, hes⟩ := h
    rw [List.dropWhile_cons_of_neg]
    exact fun hd => List.dropWhile_get_zero_not isBlank cs (by simp [← hes]) (by simpa [← hes] using hd)

theorem prefix_of_trim (cs : List Char) : trim cs <+: cs.dropWhile isBlank := by
  rw [trim, ← List.reverse_suffix, List.reverse_reverse]
  exact List.dropWhile_suffix _

/-- Trimming once is enough. -/
theorem trim_trim (cs : List Char) : trim (trim cs) = trim cs := by
  have hfront : (trim cs).dropWhile isBlank = trim cs := dropWhile_of_prefix cs (prefix_of_trim cs)
  rw [trim, hfront, trim, List.reverse_reverse, dropWhile_of_prefix _ (List.prefix_refl _)]

end Text

namespace Jsgf.Reader

open Component (Normal NormalAll normalAll_iff)

variable {inner : Reader Component} {cs : List Char} {c : Component}

/-! ## References -/

theorem splitAtLastDot_eq_none (h : splitAtLastDot cs = none) : '.' ∉ cs := by
  induction cs with
  | nil => simp
  | cons c cs ih =>
    rw [splitAtLastDot] at h
    split at h
    · cases h
    · rename_i hcs
      split at h
      · cases h
      · rename_i hc
        simp [ih hcs, Ne.symm hc]

theorem splitAtLastDot_eq_some {before after : List Char} (h : splitAtLastDot cs = some (before, after)) :
    cs = before ++ '.' :: after ∧ '.' ∉ after := by
  induction cs generalizing before with
  | nil => cases h
  | cons c cs ih =>
    rw [splitAtLastDot] at h
    split at h
    · rename_i before' after' hcs
      cases h
      obtain ⟨rfl, hafter⟩ := ih hcs
      exact ⟨rfl, hafter⟩
    · rename_i hcs
      split at h
      · rename_i hc
        cases h
        exact ⟨by rw [hc]; rfl, splitAtLastDot_eq_none hcs⟩
      · cases h

theorem splitAtLastDot_of_not_mem (h : '.' ∉ cs) : splitAtLastDot cs = none := by
  cases hsplit : splitAtLastDot cs with
  | none => rfl
  | some parts => exact absurd (by simp [(splitAtLastDot_eq_some hsplit).1]) h

theorem splitAtLastDot_append (before : List Char) {after : List Char} (h : '.' ∉ after) :
    splitAtLastDot (before ++ '.' :: after) = some (before, after) := by
  induction before with
  | nil =>
    rw [List.nil_append, splitAtLastDot, splitAtLastDot_of_not_mem h]
    simp
  | cons c before ih => rw [List.cons_append, splitAtLastDot, ih]

/-- What a name stands for is normal. -/
theorem normal_namedComponent (hne : cs ≠ []) (hcs : ∀ c ∈ cs, isReferenceChar c = true) :
    Normal (namedComponent cs) := by
  unfold namedComponent
  split
  · simp [Component.Normal, Component.NormalAll]
  · rename_i hnull
    split
    · simp [Component.Normal, Component.NormalAll]
    · rename_i hvoid
      split
      · rename_i grammar rule hsplit
        obtain ⟨rfl, hrule⟩ := splitAtLastDot_eq_some hsplit
        exact ⟨by simpa [Reference.inner] using hcs, by simpa using hrule, nofun⟩
      · rename_i hsplit
        refine ⟨by simpa [Reference.inner] using hcs, by simpa using splitAtLastDot_eq_none hsplit, fun _ => ?_⟩
        refine ⟨fun h => hne ?_, fun h => hnull ?_, fun h => hvoid ?_⟩ <;> simpa using congrArg String.toList h

/-! ## Parts of expansions -/

theorem suffix_of_unescape {close : Char} {s text rest : List Char} (h : unescape close s = .ok (text, rest)) :
    rest <:+ s ∧ rest.length + 1 ≤ s.length := by
  have hmore {c : Char} {cs : List Char} (hcs : rest <:+ cs ∧ rest.length + 1 ≤ cs.length) :
      rest <:+ c :: cs ∧ rest.length + 1 ≤ (c :: cs).length :=
    ⟨hcs.1.trans (List.suffix_cons c cs), Nat.le_succ_of_le hcs.2⟩
  induction s using unescape.induct close generalizing text with
  | case1 => cases h
  | case2 cs =>
    rw [unescape.eq_def] at h
    simp only [↓reduceIte, Except.ok.injEq, Prod.mk.injEq] at h
    obtain ⟨-, rfl⟩ := h
    exact ⟨List.suffix_cons close cs, Nat.le_refl _⟩
  | case3 hclose => simp [unescape, hclose] at h
  | case4 c cs hclose ih =>
    simp only [unescape, hclose, ↓reduceIte] at h
    cases hcs : unescape close cs with
    | error e => rw [hcs] at h; cases h
    | ok x =>
      rw [hcs] at h
      cases h
      exact hmore (hmore (ih hcs))
  | case5 c cs hclose hback ih =>
    rw [unescape.eq_def] at h
    simp only [hclose, hback, ↓reduceIte] at h
    cases hcs : unescape close cs with
    | error e => rw [hcs] at h; cases h
    | ok x =>
      rw [hcs] at h
      cases h
      exact hmore (ih hcs)

theorem takes_closedBy (close : Char) (expected : List Expectation) : Takes (closedBy close expected) 1 := by
  intro s a t h
  unfold closedBy at h
  split at h
  · rename_i x hx
    cases h
    exact suffix_of_unescape hx
  · cases h
  · cases h

theorem takes_enclosed (hinner : Takes inner 0) (opening closing : Char) :
    Takes (enclosed opening closing inner) 1 :=
  ((takes_char opening).bind fun _ => hinner.cut.bind fun c => takes_layout.bind fun _ =>
    (takes_char closing).cut.bind fun _ => takes_pure c).weaken (by decide)

theorem takes_reference : Takes reference 1 :=
  Takes.expecting (((takes_char '<').bind fun _ => takes_run.cut.bind fun cs => (takes_char '>').cut.bind fun _ =>
    takes_pure (namedComponent cs)).weaken (by decide))

theorem takes_unit (hinner : Takes inner 0) : Takes (unit inner) 1 := by
  have htag : Takes tag 1 :=
    ((takes_char '{').bind fun _ => (takes_closedBy _ _).bind fun _ => takes_pure _).weaken (by decide)
  have hquoted : Takes quoted 1 :=
    ((takes_char '"').bind fun _ => (takes_closedBy _ _).bind fun _ => takes_pure _).weaken (by decide)
  have hbare : Takes bareToken 1 := takes_run.bind fun _ => takes_pure _
  exact (takes_enclosed hinner _ _).orElse ((takes_enclosed hinner _ _).map.orElse
    (takes_reference.orElse (htag.orElse (hquoted.orElse hbare))))

theorem takes_postfixOperator : Takes postfixOperator 1 :=
  Takes.orElse ((takes_char '*').seqRight (takes_pure _)) ((takes_char '+').seqRight (takes_pure _))

/-- One item of a sequence, with the layout before it. -/
theorem takes_item (hinner : Takes inner 0) : Takes (layout *> repetition inner) 1 := by
  have hoperators : Takes (many postfixOperator) 0 := (takes_postfixOperator.weaken (by decide)).many
  have hrepetition : Takes (repetition inner) 1 :=
    (takes_unit hinner).bind fun _ => hoperators.bind fun _ => takes_pure _
  exact takes_layout.seqRight hrepetition

theorem takes_sequence (hinner : Takes inner 0) : Takes (sequence inner) 1 := by
  have hitems : Takes (atLeastOnce (layout *> repetition inner)) 1 :=
    (takes_item hinner).bind fun _ => ((takes_item hinner).weaken (by decide)).many.bind fun _ => takes_pure _
  exact hitems.expecting.bind fun _ => takes_pure _

theorem takes_weight : Takes weight 0 := by
  have hvalue : Takes weightValue 1 := by
    refine takes_run.bind (n := 0) fun cs => ?_
    cases Decimal.read? cs with
    | none => exact nofun
    | some d => exact takes_pure _
  exact ((takes_char '/').bind fun _ => hvalue.bind fun _ => (takes_char '/').cut.bind fun _ =>
    takes_pure _).weaken (by decide)

theorem takes_branch (hinner : Takes inner 0) : Takes (branch inner) 1 :=
  takes_layout.bind fun _ => takes_weight.optionally.bind fun _ => (takes_sequence hinner).bind fun _ => takes_pure _

/-- One more branch, with the bar before it. -/
theorem takes_nextBranch (hinner : Takes inner 0) : Takes (layout *> char '|' *> cut (branch inner)) 1 :=
  ((takes_layout.seqRight (takes_char '|')).seqRight (takes_branch hinner).cut).weaken (by decide)

theorem takes_branches (hinner : Takes inner 0) : Takes (branches inner) 1 := by
  have hothers : Takes (many (layout *> char '|' *> cut (branch inner))) 0 :=
    ((takes_nextBranch hinner).weaken (by decide)).many
  refine (takes_branch hinner).bind (n := 0) fun first => hothers.bind (n := 0) fun others => ?_
  cases ofBranches (first :: others) with
  | none => exact nofun
  | some c => exact takes_pure c

/-- **An expansion takes at least one character.** -/
theorem takes_expansionWithin (n : Nat) : Takes (expansionWithin n) 1 := by
  induction n with
  | zero => exact nofun
  | succ n ih => exact takes_branches (ih.weaken (by decide))

/-- The expansions within another one leave an end of the text. -/
theorem takes_nested (n : Nat) : Takes (expansionWithin n) 0 := (takes_expansionWithin n).weaken (Nat.zero_le 1)

theorem takes_expansion : Takes expansion 1 := fun s _ _ h => takes_expansionWithin s.length h

/-! ## Normal components -/

theorem isWeight_ofDecimal (d : Decimal) : (Single.ofDecimal d).IsWeight := by
  have hle : Single.magnitudeOf d ≤ Single.infinite := Nat.min_le_left _ _
  have hinfinite : Single.infinite < 2 ^ 31 := by decide
  have hbits : (Single.ofDecimal d).bits.toNat = Single.magnitudeOf d := by
    rw [Single.ofDecimal, Nat.toUInt32_eq, UInt32.toNat_ofNat', Nat.mod_eq_of_lt (by omega)]
  have hmagnitude : (Single.ofDecimal d).magnitude = Single.magnitudeOf d := by
    rw [Single.magnitude, hbits, Nat.mod_eq_of_lt (by omega)]
  constructor
  · simp only [Single.signed, hbits, decide_eq_false_iff_not]
    omega
  · simp only [Single.isNaN, hmagnitude, decide_eq_false_iff_not]
    omega

theorem normal_applyPostfix (hc : Normal c) (operator : Char) : Normal (applyPostfix c operator) := by
  unfold applyPostfix
  split
  · exact ⟨.inr (.inl ⟨rfl, rfl⟩), rfl, hc⟩
  · exact ⟨.inr (.inr ⟨rfl, rfl⟩), rfl, hc⟩

theorem normal_oneOrSequence {items : List Component} (hne : items ≠ []) (h : ∀ c ∈ items, Normal c) :
    Normal (oneOrSequence items) := by
  match items, hne, h with
  | [c], _, h => exact h c List.mem_cons_self
  | c :: d :: cs, _, h => exact ⟨by simp, normalAll_iff.mpr h⟩

theorem yields_enclosed (hinner : Yields inner Normal) (opening closing : Char) :
    Yields (enclosed opening closing inner) Normal :=
  (yields_true _).bind fun _ _ => hinner.cut.bind fun _ hc => (yields_true _).bind fun _ _ =>
    (yields_true _).bind fun _ _ => yields_pure hc

theorem yields_unit (hinner : Yields inner Normal) : Yields (unit inner) Normal := by
  have hoptional : Yields (Component.optional <$> enclosed '[' ']' inner) Normal :=
    (yields_enclosed hinner _ _).map fun _ hc => ⟨.inl ⟨rfl, rfl⟩, rfl, hc⟩
  have hreference : Yields reference Normal :=
    Yields.expecting ((yields_true _).bind fun _ _ => yields_run.cut.bind fun _ hcs => (yields_true _).bind fun _ _ =>
      yields_pure (normal_namedComponent hcs.1 hcs.2))
  have htag : Yields tag Normal :=
    (yields_true _).bind fun _ _ => (yields_true _).bind fun cs _ =>
      yields_pure (by simp [Component.Normal, Text.trim_trim])
  have hquoted : Yields quoted Normal :=
    (yields_true _).bind fun _ _ => (yields_true _).bind fun _ _ => yields_pure trivial
  have hbare : Yields bareToken Normal := (yields_true _).bind fun _ _ => yields_pure trivial
  exact (yields_enclosed hinner _ _).orElse (hoptional.orElse (hreference.orElse (htag.orElse (hquoted.orElse hbare))))

theorem yields_repetition (hinner : Yields inner Normal) : Yields (repetition inner) Normal := by
  refine (yields_unit hinner).bind fun c hc => (yields_true _).bind fun operators _ => yields_pure ?_
  induction operators generalizing c with
  | nil => exact hc
  | cons operator operators ih => exact ih _ (normal_applyPostfix hc operator)

theorem yields_sequence (hinner : Yields inner Normal) : Yields (sequence inner) Normal := by
  have hitem : Yields (layout *> repetition inner) Normal := (yields_true _).bind fun _ _ => yields_repetition hinner
  exact hitem.atLeastOnce.expecting.bind fun _ hitems => yields_pure (normal_oneOrSequence hitems.1 hitems.2)

/-- What holds of a branch with its weight. -/
def NormalBranch (x : Option Single × Component) : Prop := (∀ w, x.1 = some w → w.IsWeight) ∧ Normal x.2

theorem yields_branch (hinner : Yields inner Normal) : Yields (branch inner) NormalBranch := by
  have hvalue : Yields weightValue Single.IsWeight := by
    refine (yields_true _).bind fun cs _ => ?_
    cases Decimal.read? cs with
    | none => exact nofun
    | some d => exact yields_pure (isWeight_ofDecimal d)
  have hweight : Yields weight Single.IsWeight :=
    (yields_true _).bind fun _ _ => hvalue.bind fun _ hw => (yields_true _).bind fun _ _ => yields_pure hw
  exact (yields_true _).bind fun _ _ => hweight.optionally.bind fun _ hw => (yields_sequence hinner).bind fun _ hc =>
    yields_pure ⟨hw, hc⟩

theorem commonWeights_eq_some {weights : List (Option Single)} {common : Option (List Single)}
    (h : commonWeights weights = some common) :
    (common = none ∧ ∀ x ∈ weights, x = none) ∨ ∃ ws, common = some ws ∧ weights ≠ [] ∧ weights = ws.map some := by
  unfold commonWeights at h
  split at h
  · rename_i hnone
    cases h
    exact .inl ⟨rfl, by simpa using hnone⟩
  · rename_i hnone
    split at h
    · rename_i hsome
      cases h
      refine .inr ⟨_, rfl, fun hnil => hnone (by simp [hnil]), ?_⟩
      clear hnone
      induction weights with
      | nil => rfl
      | cons x weights ih =>
        obtain ⟨w, rfl⟩ := Option.isSome_iff_exists.mp (List.all_eq_true.mp hsome x List.mem_cons_self)
        have hcons : (some w :: weights).filterMap id = w :: weights.filterMap id := rfl
        rw [hcons, List.map_cons, ← ih (by simpa using hsome)]
    · cases h

theorem normal_ofBranches {bs : List (Option Single × Component)} (hbs : ∀ x ∈ bs, NormalBranch x)
    (h : ofBranches bs = some c) : Normal c := by
  have hall : ∀ c ∈ bs.map Prod.snd, Normal c := List.forall_mem_map.mpr fun x hx => (hbs x hx).2
  unfold ofBranches at h
  split at h
  · cases h
    exact hall c List.mem_cons_self
  · rename_i hsingle
    obtain ⟨common, hcommon, rfl⟩ := Option.map_eq_some_iff.mp h
    rcases commonWeights_eq_some hcommon with ⟨rfl, hnone⟩ | ⟨ws, rfl, hne, hws⟩
    · refine ⟨fun hlength => ?_, normalAll_iff.mpr hall⟩
      -- a single branch without a weight is not an alternative
      obtain ⟨⟨x, d⟩, rfl⟩ := List.length_eq_one_iff.mp (by simpa using hlength)
      obtain rfl : x = none := by simpa using hnone
      exact hsingle d rfl
    · refine ⟨by simpa using hne, by simpa using (congrArg List.length hws).symm, fun w hw => ?_,
        normalAll_iff.mpr hall⟩
      obtain ⟨x, hx, hxw⟩ := List.mem_map.mp (hws ▸ List.mem_map_of_mem hw)
      exact (hbs x hx).1 w hxw

theorem yields_branches (hinner : Yields inner Normal) : Yields (branches inner) Normal := by
  have hnext : Yields (layout *> char '|' *> cut (branch inner)) NormalBranch :=
    (yields_true _).bind fun _ _ => (yields_branch hinner).cut
  refine (yields_branch hinner).bind fun first hfirst => hnext.many.bind fun others hothers => ?_
  cases hc : ofBranches (first :: others) with
  | none => exact nofun
  | some c => exact yields_pure (normal_ofBranches (List.forall_mem_cons.mpr ⟨hfirst, hothers⟩) hc)

/-- **An expansion is normal.** -/
theorem yields_expansionWithin (n : Nat) : Yields (expansionWithin n) Normal := by
  induction n with
  | zero => exact nofun
  | succ n ih => exact yields_branches ih

end Jsgf.Reader

end SpeechGrammar
