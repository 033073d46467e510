import SpeechGrammar.Proofs.Compilability
import SpeechGrammar.Proofs.Language
import SpeechGrammar.Proofs.Rereading

/-!
# What is read back fits the same words

The component that is read where another one is written is a different tree: repetitions are written out, sequences of
one item vanish, and sequences within sequences are spliced in. But in every environment it fits the same spoken words
(**`Environment.accepts_reread_iff`**), it mentions the same references (**`Component.mem_liveReferences_reread`**), and
it has no fault if there was none (**`Component.fault?_reread`**). All three are shown for the items that are read in
place of the component.
-/

namespace SpeechGrammar

open Jsgf.Reader (oneOrSequence)

theorem Component.admits_of_boundsFault? {min : Nat} {max : Bound} (h : boundsFault? min max = none) :
    max.Admits min := by
  rintro most rfl
  simp only [boundsFault?] at h
  split at h
  · cases h
  · omega

/-! ## Words -/

namespace Environment

open Component (items itemsAll rereadAll repetitionItems choice orNull)

variable {env : Environment} {wildcards : Bool} {owner : String} {c d body : Component} {cs ds : List Component}
  {spoken : List String}

theorem acceptsAll_nil_iff : env.AcceptsAll wildcards owner [] spoken ↔ spoken = [] := by
  constructor
  · rintro ⟨⟩
    rfl
  · rintro rfl
    exact .nil

theorem acceptsAll_cons_iff : env.AcceptsAll wildcards owner (c :: cs) spoken ↔
    ∃ first rest, spoken = first ++ rest ∧ env.Accepts wildcards owner c first ∧
      env.AcceptsAll wildcards owner cs rest := by
  constructor
  · intro h
    cases h with
    | cons hc hcs => exact ⟨_, _, rfl, hc, hcs⟩
  · rintro ⟨first, rest, rfl, hc, hcs⟩
    exact .cons hc hcs

theorem acceptsAll_singleton_iff :
    env.AcceptsAll wildcards owner [c] spoken ↔ env.Accepts wildcards owner c spoken := by
  simp only [acceptsAll_cons_iff, acceptsAll_nil_iff]
  constructor
  · rintro ⟨first, rest, rfl, hc, rfl⟩
    rwa [List.append_nil]
  · exact fun hc => ⟨spoken, [], (List.append_nil spoken).symm, hc, rfl⟩

theorem acceptsAll_append_iff : env.AcceptsAll wildcards owner (cs ++ ds) spoken ↔
    ∃ first rest, spoken = first ++ rest ∧ env.AcceptsAll wildcards owner cs first ∧
      env.AcceptsAll wildcards owner ds rest := by
  induction cs generalizing spoken with
  | nil =>
    simp only [List.nil_append, acceptsAll_nil_iff]
    constructor
    · exact fun h => ⟨[], spoken, rfl, rfl, h⟩
    · rintro ⟨_, rest, rfl, rfl, h⟩
      exact h
  | cons c cs ih =>
    simp only [List.cons_append, acceptsAll_cons_iff, ih]
    constructor
    · rintro ⟨first, _, rfl, hc, middle, rest, rfl, hcs, hds⟩
      exact ⟨first ++ middle, rest, (List.append_assoc ..).symm, ⟨first, middle, rfl, hc, hcs⟩, hds⟩
    · rintro ⟨_, rest, rfl, ⟨first, middle, rfl, hc, hcs⟩, hds⟩
      exact ⟨first, middle ++ rest, List.append_assoc .., hc, middle, rest, rfl, hcs, hds⟩

theorem accepts_sequence_iff :
    env.Accepts wildcards owner (.sequence cs) spoken ↔ env.AcceptsAll wildcards owner cs spoken := by
  constructor
  · rintro ⟨⟩
    assumption
  · exact .sequence

theorem accepts_alternatives_iff {weights : Option (List Single)} :
    env.Accepts wildcards owner (.alternatives cs weights) spoken ↔
      ∃ c ∈ cs, env.Accepts wildcards owner c spoken := by
  constructor
  · intro h
    cases h with
    | alternatives hmem hc => exact ⟨_, hmem, hc⟩
  · rintro ⟨c, hmem, hc⟩
    exact .alternatives hmem hc

theorem accepts_count_iff {min : Nat} {max : Bound} {probability : Option Single} :
    env.Accepts wildcards owner (.count body min max probability) spoken ↔
      ∃ n, min ≤ n ∧ max.Admits n ∧ env.AcceptsAll wildcards owner (List.replicate n body) spoken := by
  constructor
  · intro h
    cases h with
    | count hmin hmax hall => exact ⟨_, hmin, hmax, hall⟩
  · rintro ⟨n, hmin, hmax, hall⟩
    exact .count hmin hmax hall

theorem accepts_oneOrSequence_iff :
    env.Accepts wildcards owner (oneOrSequence cs) spoken ↔ env.AcceptsAll wildcards owner cs spoken := by
  unfold oneOrSequence
  split
  · exact acceptsAll_singleton_iff.symm
  · exact accepts_sequence_iff

theorem acceptsAll_orNull_iff :
    env.AcceptsAll wildcards owner (orNull cs) spoken ↔ env.AcceptsAll wildcards owner cs spoken := by
  cases cs with
  | nil => exact acceptsAll_singleton_iff.trans accepts_sequence_iff
  | cons c cs => exact Iff.rfl

theorem accepts_choice_iff {weights : Option (List Single)} :
    env.Accepts wildcards owner (choice cs weights) spoken ↔ ∃ c ∈ cs, env.Accepts wildcards owner c spoken := by
  unfold choice
  split
  · exact accepts_alternatives_iff
  · simp only [List.mem_singleton, exists_eq_left]
  · exact accepts_alternatives_iff

/-! ### Repetitions -/

/-- Copies of a component fit what copies of another one fit, if the components do. -/
theorem acceptsAll_replicate_congr
    (h : ∀ spoken, env.Accepts wildcards owner c spoken ↔ env.Accepts wildcards owner d spoken) (n : Nat) :
    env.AcceptsAll wildcards owner (List.replicate n c) spoken ↔
      env.AcceptsAll wildcards owner (List.replicate n d) spoken := by
  induction n generalizing spoken with
  | zero => exact Iff.rfl
  | succ n ih => simp only [List.replicate_succ, acceptsAll_cons_iff, h, ih]

/-- Copies, and then others of the same component, are so many copies. -/
theorem acceptsAll_replicate_add_iff {m n : Nat} :
    env.AcceptsAll wildcards owner (List.replicate (m + n) c) spoken ↔
      ∃ first rest, spoken = first ++ rest ∧ env.AcceptsAll wildcards owner (List.replicate m c) first ∧
        env.AcceptsAll wildcards owner (List.replicate n c) rest := by
  rw [List.replicate_add, acceptsAll_append_iff]

theorem accepts_optional_iff :
    env.Accepts wildcards owner c.optional spoken ↔ spoken = [] ∨ env.Accepts wildcards owner c spoken := by
  rw [Component.optional, Component.repeated, accepts_count_iff]
  constructor
  · rintro ⟨n, -, hmax, hall⟩
    have hle : n ≤ 1 := hmax 1 rfl
    obtain rfl | rfl : n = 0 ∨ n = 1 := by omega
    · exact .inl (acceptsAll_nil_iff.mp hall)
    · exact .inr (acceptsAll_singleton_iff.mp hall)
  · rintro (rfl | hc)
    · exact ⟨0, Nat.le_refl 0, fun _ _ => Nat.zero_le _, .nil⟩
    · exact ⟨1, Nat.zero_le 1, fun most hmost => by cases hmost; exact Nat.le_refl 1, acceptsAll_singleton_iff.mpr hc⟩

/-- So many optional copies are any number of copies up to so many. -/
theorem acceptsAll_replicate_optional_iff {k : Nat} :
    env.AcceptsAll wildcards owner (List.replicate k c.optional) spoken ↔
      ∃ j, j ≤ k ∧ env.AcceptsAll wildcards owner (List.replicate j c) spoken := by
  induction k generalizing spoken with
  | zero => simp only [List.replicate_zero, Nat.le_zero_eq, exists_eq_left]
  | succ k ih =>
    simp only [List.replicate_succ, acceptsAll_cons_iff, accepts_optional_iff, ih]
    constructor
    · rintro ⟨first, rest, rfl, rfl | hc, j, hj, hall⟩
      · exact ⟨j, Nat.le_succ_of_le hj, hall⟩
      · exact ⟨j + 1, Nat.succ_le_succ hj, .cons hc hall⟩
    · rintro ⟨j, hj, hall⟩
      cases j with
      | zero => exact ⟨[], spoken, rfl, .inl rfl, 0, Nat.zero_le k, hall⟩
      | succ j =>
        obtain ⟨first, rest, rfl, hc, hrest⟩ := acceptsAll_cons_iff.mp hall
        exact ⟨first, rest, rfl, .inr hc, j, Nat.le_of_succ_le_succ hj, hrest⟩

/-- The parts of a repetition fit what as many repetitions fit as the bounds allow. -/
theorem acceptsAll_repetitionItems_iff {min : Nat} {max : Bound} (h : max.Admits min) :
    env.AcceptsAll wildcards owner (repetitionItems c min max) spoken ↔
      ∃ n, min ≤ n ∧ max.Admits n ∧ env.AcceptsAll wildcards owner (List.replicate n c) spoken := by
  cases max with
  | finite most =>
    have hle : min ≤ most := h most rfl
    simp only [repetitionItems, acceptsAll_append_iff, acceptsAll_replicate_optional_iff]
    constructor
    · rintro ⟨first, rest, rfl, hfirst, j, hj, hrest⟩
      refine ⟨min + j, Nat.le_add_right min j, fun n hn => ?_, ?_⟩
      · cases hn
        omega
      · exact acceptsAll_replicate_add_iff.mpr ⟨first, rest, rfl, hfirst, hrest⟩
    · rintro ⟨n, hmin, hmax, hall⟩
      have hn : n ≤ most := hmax most rfl
      obtain ⟨j, rfl⟩ := Nat.exists_eq_add_of_le hmin
      obtain ⟨first, rest, rfl, hfirst, hrest⟩ := acceptsAll_replicate_add_iff.mp hall
      exact ⟨first, rest, rfl, hfirst, j, by omega, hrest⟩
  | indefinite =>
    have hany (n : Nat) : Bound.indefinite.Admits n := fun _ h => absurd h (by simp)
    simp only [repetitionItems, acceptsAll_append_iff, acceptsAll_singleton_iff]
    cases min with
    | zero =>
      simp only [↓reduceIte, Component.zeroOrMore, Component.repeated, accepts_count_iff, Nat.zero_sub,
        List.replicate_zero, acceptsAll_nil_iff]
      constructor
      · rintro ⟨_, rest, rfl, rfl, n, hmin, hmax, hall⟩
        exact ⟨n, hmin, hmax, hall⟩
      · exact fun h => ⟨[], spoken, rfl, rfl, h⟩
    | succ min =>
      -- all copies but the last one are written out, and that one carries the operator
      simp only [Nat.succ_ne_zero, ↓reduceIte, Component.oneOrMore, Component.repeated, accepts_count_iff,
        Nat.add_sub_cancel]
      constructor
      · rintro ⟨first, rest, rfl, hfirst, n, hmin, -, hall⟩
        exact ⟨min + n, Nat.add_le_add_left hmin min, hany _,
          acceptsAll_replicate_add_iff.mpr ⟨first, rest, rfl, hfirst, hall⟩⟩
      · rintro ⟨n, hmin, -, hall⟩
        obtain ⟨j, rfl⟩ := Nat.exists_eq_add_of_le (Nat.le_of_succ_le hmin)
        obtain ⟨first, rest, rfl, hfirst, hrest⟩ := acceptsAll_replicate_add_iff.mp hall
        exact ⟨first, rest, rfl, hfirst, j, by omega, hany _, hrest⟩

/-! ### Components -/

mutual

/-- The items that are read in place of a component fit the same words. -/
theorem acceptsAll_items_iff : ∀ {c : Component}, c.fault? = none → ∀ spoken,
    env.AcceptsAll wildcards owner c.items spoken ↔ env.Accepts wildcards owner c spoken
  | .token _, _, _ => acceptsAll_singleton_iff
  | .tag _, _, spoken => by
    rw [items, acceptsAll_singleton_iff]
    constructor <;> (rintro ⟨⟩; exact .tag)
  | .reference _, _, _ => acceptsAll_singleton_iff
  | .sequence cs, h, spoken => by
    rw [items, acceptsAll_orNull_iff, accepts_sequence_iff]
    exact acceptsAll_itemsAll_iff h spoken
  | .alternatives branches weights, h, spoken => by
    rw [Component.fault?, Option.or_eq_none_iff] at h
    rw [items, acceptsAll_singleton_iff, accepts_choice_iff, accepts_alternatives_iff]
    exact exists_rereadAll_iff h.2 spoken
  | .count body min max _, h, spoken => by
    simp only [Component.fault?, Option.or_eq_none_iff] at h
    have hbody : ∀ spoken, env.Accepts wildcards owner (oneOrSequence body.items) spoken ↔
        env.Accepts wildcards owner body spoken := fun spoken =>
      accepts_oneOrSequence_iff.trans (acceptsAll_items_iff h.2.2 spoken)
    rw [items, acceptsAll_orNull_iff, acceptsAll_repetitionItems_iff (Component.admits_of_boundsFault? h.1),
      accepts_count_iff]
    simp only [acceptsAll_replicate_congr hbody]

theorem acceptsAll_itemsAll_iff : ∀ {cs : List Component}, Component.faultAmong? cs = none → ∀ spoken,
    env.AcceptsAll wildcards owner (itemsAll cs) spoken ↔ env.AcceptsAll wildcards owner cs spoken
  | [], _, _ => Iff.rfl
  | c :: cs, h, spoken => by
    rw [Component.faultAmong?, Option.or_eq_none_iff] at h
    rw [itemsAll, acceptsAll_append_iff, acceptsAll_cons_iff]
    simp only [acceptsAll_items_iff h.1, acceptsAll_itemsAll_iff h.2]

theorem exists_rereadAll_iff : ∀ {cs : List Component}, Component.faultAmong? cs = none → ∀ spoken,
    (∃ c ∈ rereadAll cs, env.Accepts wildcards owner c spoken) ↔ ∃ c ∈ cs, env.Accepts wildcards owner c spoken
  | [], _, _ => Iff.rfl
  | c :: cs, h, spoken => by
    rw [Component.faultAmong?, Option.or_eq_none_iff] at h
    simp only [rereadAll, List.exists_mem_cons_iff, accepts_oneOrSequence_iff, acceptsAll_items_iff h.1,
      exists_rereadAll_iff h.2]

end

/-- **What is read where a component is written fits the same words.** -/
theorem accepts_reread_iff (h : c.fault? = none) :
    env.Accepts wildcards owner c.reread spoken ↔ env.Accepts wildcards owner c spoken :=
  accepts_oneOrSequence_iff.trans (acceptsAll_items_iff h spoken)

end Environment

/-! ## References -/

namespace Component

variable {c : Component} {cs ds : List Component} {r : Reference}

theorem liveReferencesAll_append (cs ds : List Component) :
    liveReferencesAll (cs ++ ds) = liveReferencesAll cs ++ liveReferencesAll ds := by
  induction cs with
  | nil => rfl
  | cons c cs ih => rw [List.cons_append, liveReferencesAll, liveReferencesAll, ih, List.append_assoc]

theorem liveReferencesAll_singleton (c : Component) : liveReferencesAll [c] = c.liveReferences :=
  List.append_nil _

theorem mem_liveReferencesAll_replicate {n : Nat} :
    r ∈ liveReferencesAll (List.replicate n c) ↔ n ≠ 0 ∧ r ∈ c.liveReferences := by
  induction n with
  | zero => simp [liveReferencesAll]
  | succ n ih =>
    rw [List.replicate_succ, liveReferencesAll, List.mem_append, ih]
    simp only [ne_eq, Nat.succ_ne_zero, not_false_eq_true, true_and, or_iff_left_iff_imp, and_imp]
    exact fun _ h => h

theorem liveReferences_oneOrSequence (cs : List Component) :
    (oneOrSequence cs).liveReferences = liveReferencesAll cs := by
  unfold oneOrSequence
  split
  · exact (liveReferencesAll_singleton _).symm
  · rfl

theorem liveReferencesAll_orNull (cs : List Component) : liveReferencesAll (orNull cs) = liveReferencesAll cs := by
  cases cs <;> rfl

theorem liveReferences_choice (cs : List Component) (weights : Option (List Single)) :
    (choice cs weights).liveReferences = liveReferencesAll cs := by
  unfold choice
  split
  · rfl
  · exact (liveReferencesAll_singleton _).symm
  · rfl

/-- The parts of a repetition mention what its body mentions, unless no repetition is allowed. -/
theorem mem_liveReferencesAll_repetitionItems {min : Nat} {max : Bound} (h : max.Admits min) :
    r ∈ liveReferencesAll (repetitionItems c min max) ↔ max ≠ .finite 0 ∧ r ∈ c.liveReferences := by
  cases max with
  | finite most =>
    have hle : min ≤ most := h most rfl
    have hoptional : c.optional.liveReferences = c.liveReferences := if_neg (by simp)
    simp only [repetitionItems, liveReferencesAll_append, List.mem_append, mem_liveReferencesAll_replicate,
      hoptional, ne_eq, Bound.finite.injEq, ← or_and_right]
    refine and_congr_left fun _ => ?_
    omega
  | indefinite =>
    have hlast : (if min = 0 then c.zeroOrMore else c.oneOrMore).liveReferences = c.liveReferences := by
      split <;> exact if_neg (by simp)
    simp only [repetitionItems, liveReferencesAll_append, liveReferencesAll_singleton, List.mem_append,
      mem_liveReferencesAll_replicate, hlast, ne_eq, reduceCtorEq, not_false_eq_true, true_and,
      or_iff_right_iff_imp, and_imp]
    exact fun _ h => h

mutual

theorem mem_liveReferencesAll_items : ∀ {c : Component}, c.fault? = none →
    (r ∈ liveReferencesAll c.items ↔ r ∈ c.liveReferences)
  | .token _, _ => Iff.rfl
  | .tag _, _ => Iff.rfl
  | .reference _, _ => by rw [items, liveReferencesAll_singleton]
  | .sequence cs, h => by
    rw [items, liveReferencesAll_orNull, liveReferences]
    exact mem_liveReferencesAll_itemsAll h
  | .alternatives branches weights, h => by
    rw [fault?, Option.or_eq_none_iff] at h
    rw [items, liveReferencesAll_singleton, liveReferences_choice, liveReferences]
    exact mem_liveReferencesAll_rereadAll h.2
  | .count body min max _, h => by
    simp only [fault?, Option.or_eq_none_iff] at h
    rw [items, liveReferencesAll_orNull, mem_liveReferencesAll_repetitionItems (admits_of_boundsFault? h.1),
      liveReferences_oneOrSequence, mem_liveReferencesAll_items h.2.2, liveReferences]
    split <;> simp_all

theorem mem_liveReferencesAll_itemsAll : ∀ {cs : List Component}, faultAmong? cs = none →
    (r ∈ liveReferencesAll (itemsAll cs) ↔ r ∈ liveReferencesAll cs)
  | [], _ => Iff.rfl
  | c :: cs, h => by
    rw [faultAmong?, Option.or_eq_none_iff] at h
    rw [itemsAll, liveReferencesAll_append, liveReferencesAll, List.mem_append, List.mem_append,
      mem_liveReferencesAll_items h.1, mem_liveReferencesAll_itemsAll h.2]

theorem mem_liveReferencesAll_rereadAll : ∀ {cs : List Component}, faultAmong? cs = none →
    (r ∈ liveReferencesAll (rereadAll cs) ↔ r ∈ liveReferencesAll cs)
  | [], _ => Iff.rfl
  | c :: cs, h => by
    rw [faultAmong?, Option.or_eq_none_iff] at h
    rw [rereadAll, liveReferencesAll, liveReferencesAll, List.mem_append, List.mem_append,
      liveReferences_oneOrSequence, mem_liveReferencesAll_items h.1, mem_liveReferencesAll_rereadAll h.2]

end

/-- **What is read where a component is written mentions the same references.** -/
theorem mem_liveReferences_reread (h : c.fault? = none) : r ∈ c.reread.liveReferences ↔ r ∈ c.liveReferences := by
  rw [reread, liveReferences_oneOrSequence, mem_liveReferencesAll_items h]

/-! ## Faults -/

theorem fault?_oneOrSequence (h : ∀ c ∈ cs, c.fault? = none) : (oneOrSequence cs).fault? = none := by
  unfold oneOrSequence
  split
  · exact h _ List.mem_cons_self
  · exact faultAmong?_eq_none_iff.mpr h

theorem forall_orNull (h : ∀ c ∈ cs, c.fault? = none) : ∀ c ∈ orNull cs, c.fault? = none := by
  cases cs with
  | nil => exact List.forall_mem_singleton.mpr rfl
  | cons c cs => exact h

theorem length_rereadAll (cs : List Component) : (rereadAll cs).length = cs.length := by
  rw [rereadAll_eq, List.length_map]

theorem fault?_choice {weights : Option (List Single)} (hweights : weightsFault? cs.length weights = none)
    (h : ∀ c ∈ cs, c.fault? = none) : (choice cs weights).fault? = none := by
  unfold choice
  split
  · rfl
  · exact h _ List.mem_cons_self
  · rw [fault?, hweights]
    exact faultAmong?_eq_none_iff.mpr h

theorem forall_repetitionItems (hc : c.fault? = none) (min : Nat) (max : Bound) :
    ∀ d ∈ repetitionItems c min max, d.fault? = none := by
  have hcopies (n : Nat) {d : Component} (hd : d.fault? = none) : ∀ e ∈ List.replicate n d, e.fault? = none :=
    fun e he => List.eq_of_mem_replicate he ▸ hd
  have hrepeated {m : Nat} {b : Bound} (hb : boundsFault? m b = none) : (c.repeated m b).fault? = none := by
    rw [repeated, fault?, hb, hc]
    rfl
  cases max with
  | finite most =>
    exact List.forall_mem_append.mpr ⟨hcopies min hc, hcopies (most - min) (hrepeated (by decide))⟩
  | indefinite =>
    refine List.forall_mem_append.mpr ⟨hcopies (min - 1) hc, List.forall_mem_singleton.mpr ?_⟩
    split
    · exact hrepeated (by decide)
    · exact hrepeated (by decide)

mutual

theorem fault?_items : ∀ {c : Component}, c.fault? = none → ∀ d ∈ c.items, d.fault? = none
  | .token _, h => List.forall_mem_singleton.mpr h
  | .tag _, _ => List.forall_mem_singleton.mpr rfl
  | .reference _, h => List.forall_mem_singleton.mpr h
  | .sequence cs, h => forall_orNull (fault?_itemsAll h)
  | .alternatives branches weights, h => by
    rw [fault?, Option.or_eq_none_iff] at h
    exact List.forall_mem_singleton.mpr
      (fault?_choice ((length_rereadAll branches).symm ▸ h.1) (fault?_rereadAll h.2))
  | .count body min max _, h => by
    simp only [fault?, Option.or_eq_none_iff] at h
    exact forall_orNull (forall_repetitionItems (fault?_oneOrSequence (fault?_items h.2.2)) min max)

theorem fault?_itemsAll : ∀ {cs : List Component}, faultAmong? cs = none → ∀ d ∈ itemsAll cs, d.fault? = none
  | [], _ => List.forall_mem_nil _
  | c :: cs, h => by
    rw [faultAmong?, Option.or_eq_none_iff] at h
    exact List.forall_mem_append.mpr ⟨fault?_items h.1, fault?_itemsAll h.2⟩

theorem fault?_rereadAll : ∀ {cs : List Component}, faultAmong? cs = none → ∀ d ∈ rereadAll cs, d.fault? = none
  | [], _ => List.forall_mem_nil _
  | c :: cs, h => by
    rw [faultAmong?, Option.or_eq_none_iff] at h
    exact List.forall_mem_cons.mpr ⟨fault?_oneOrSequence (fault?_items h.1), fault?_rereadAll h.2⟩

end

/-- **What is read where a component without fault is written has no fault.** -/
theorem fault?_reread (h : c.fault? = none) : c.reread.fault? = none := fault?_oneOrSequence (fault?_items h)

end Component

end SpeechGrammar
