import SpeechGrammar.Proofs.Rereading

/-!
# Components with a legible text

Not every component without fault has a text that can be read. Its text can be read if it is clear: the references in it
consist of characters that may stand between angle brackets, and no weight has a sign (`Component.Clear`). Else the
reader gets stuck in the text, or fails softly where a branch should start, and then the bracket or the bar before the
branch makes the failure hard. So each component is legible if it is clear, and illegible if it is not
(**`Reader.legibility`**), as long as no reference closes its own bracket.
-/

namespace SpeechGrammar

/-- All characters of the reference may stand between angle brackets. -/
def Reference.Clear (r : Reference) : Prop := ∀ c ∈ r.inner, Jsgf.isReferenceChar c = true

/-- The reference does not close the bracket before it. -/
def Reference.Contained (r : Reference) : Prop := '>' ∉ r.inner

theorem Reference.Clear.contained {r : Reference} (h : r.Clear) : r.Contained :=
  fun hmem => absurd (h '>' hmem) (by decide)

namespace Component

section

variable (P : Reference → Prop) (Q : Single → Prop)

mutual

/-- The references and the weights that are written are of these kinds. Of a repetition that allows none, nothing is
written. -/
def Writes : Component → Prop
  | .token _ => True
  | .tag _ => True
  | .reference r => P r
  | .sequence items => WritesAll items
  | .alternatives branches weights => (∀ w ∈ weights.getD [], Q w) ∧ WritesAll branches
  | .count body _ max _ => max ≠ .finite 0 → Writes body

/-- The references and the weights that are written of several components are of these kinds. -/
def WritesAll : List Component → Prop
  | [] => True
  | c :: cs => Writes c ∧ WritesAll cs

end

end

/-- The references that are written consist of the right characters, and the weights have no sign. -/
def Clear (c : Component) : Prop := c.Writes Reference.Clear fun w => w.signed = false

/-- No reference that is written closes its own bracket. -/
def Contained (c : Component) : Prop := c.Writes Reference.Contained fun _ => True

variable {P P' : Reference → Prop} {Q Q' : Single → Prop} {cs : List Component}

theorem writesAll_iff : WritesAll P Q cs ↔ ∀ c ∈ cs, c.Writes P Q := by
  induction cs with
  | nil => simp [WritesAll]
  | cons c cs ih => rw [WritesAll, ih, List.forall_mem_cons]

mutual

theorem Writes.imp (hP : ∀ r, P r → P' r) (hQ : ∀ w, Q w → Q' w) : ∀ {c : Component}, c.Writes P Q → c.Writes P' Q'
  | .token _, _ => trivial
  | .tag _, _ => trivial
  | .reference r, h => hP r h
  | .sequence _, h => WritesAll.imp hP hQ h
  | .alternatives _ _, h => ⟨fun w hw => hQ w (h.1 w hw), WritesAll.imp hP hQ h.2⟩
  | .count _ _ _ _, h => fun hmax => Writes.imp hP hQ (h hmax)

theorem WritesAll.imp (hP : ∀ r, P r → P' r) (hQ : ∀ w, Q w → Q' w) :
    ∀ {cs : List Component}, WritesAll P Q cs → WritesAll P' Q' cs
  | [], _ => trivial
  | _ :: _, h => ⟨Writes.imp hP hQ h.1, WritesAll.imp hP hQ h.2⟩

end

theorem Clear.contained {c : Component} (h : c.Clear) : c.Contained :=
  Writes.imp (fun _ => Reference.Clear.contained) (fun _ _ => trivial) h

/-- A reference without fault has a name. -/
theorem inner_ne_nil_of_fault? {r : Reference} (h : (Component.reference r).fault? = none) : r.inner ≠ [] := by
  have hrule : r.rule.toList ≠ [] := by
    intro hnil
    have hempty : r.rule = "" := String.toList_inj.mp hnil
    rw [fault?, hempty] at h
    cases h
  unfold Reference.inner
  cases r.grammar with
  | none => exact hrule
  | some g => simp

/-- Nothing is written of a repetition without fault only if it allows none. -/
theorem repetitionParts_eq_nil {unit body : List Char} {min : Nat} {max : Bound} (h : boundsFault? min max = none) :
    repetitionParts unit body min max = [] ↔ max = .finite 0 := by
  cases max with
  | indefinite => simp [repetitionParts]
  | finite most =>
    have hle : min ≤ most := by
      simp only [boundsFault?] at h
      split at h
      · cases h
      · rename_i hlt
        exact Nat.not_lt.mp hlt
    simp only [repetitionParts, List.append_eq_nil_iff, List.replicate_eq_nil_iff, Bound.finite.injEq]
    omega

end Component

namespace Jsgf.Reader

variable {inner p : Reader Component} {s text cs rest : List Char} {c x : Component} {texts : List (List Char)}

/-! ## Failing texts -/

/-- The text starts a unit that cannot be read, whatever follows. -/
structure AbortsUnit (inner : Reader Component) (text : List Char) : Prop where
  starts : Starts text
  unit : ∀ rest, Aborts (Reader.unit inner) (text ++ rest)

/-- Some item of the text cannot be read, whatever follows. -/
structure SticksItems (inner : Reader Component) (text : List Char) : Prop where
  starts : Starts text
  items : ∀ rest, GetsStuck (layout *> repetition inner) (text ++ rest)

/-- The text is not read as a branch, whatever follows. -/
structure FailsBranch (inner : Reader Component) (text : List Char) : Prop where
  solid : ∀ rest, Solid (text ++ rest)
  branch : ∀ rest, Fails (Reader.branch inner) (text ++ rest)

/-- The text is not read as an expansion, whatever follows. -/
structure FailsWhole (p : Reader Component) (text : List Char) : Prop where
  solid : ∀ rest, Solid (text ++ rest)
  read : ∀ rest, Fails p (text ++ rest)

theorem aborts_item (hsolid : Solid s) (h : Aborts (unit inner) s) : Aborts (layout *> repetition inner) s :=
  aborts_bind_of_ok (layout_solid hsolid) h.bind

theorem AbortsUnit.items (h : AbortsUnit inner text) : SticksItems inner text :=
  ⟨h.starts, fun rest => (aborts_item (h.starts.solid rest) (h.unit rest)).getsStuck⟩

theorem AbortsUnit.append (h : AbortsUnit inner text) (more : List Char) : AbortsUnit inner (text ++ more) := by
  refine ⟨h.starts.append more, fun rest => ?_⟩
  rw [List.append_assoc]
  exact h.unit (more ++ rest)

theorem aborts_enclosed {opening closing : Char} (h : Fails inner s) :
    Aborts (enclosed opening closing inner) (opening :: s) := aborts_bind_of_ok (char_cons opening s) h.cut.bind

theorem FailsWhole.group (h : FailsWhole inner text) : AbortsUnit inner ('(' :: (text ++ [')'])) := by
  refine ⟨⟨'(', _, rfl, by decide, by decide⟩, fun rest => ?_⟩
  rw [List.cons_append, List.append_assoc]
  exact (aborts_enclosed (h.read _)).orElse

theorem FailsWhole.bracket (h : FailsWhole inner text) : AbortsUnit inner ('[' :: (text ++ [']'])) := by
  refine ⟨⟨'[', _, rfl, by decide, by decide⟩, fun rest => ?_⟩
  rw [List.cons_append, List.append_assoc]
  exact aborts_orElse_of_refuses (refuses_enclosed (by decide) _) (aborts_enclosed (h.read _)).map.orElse

/-- A name between angle brackets is not read up to its end if there is another character in it before. -/
theorem abortsUnit_name (hcs : ∃ c ∈ cs, isReferenceChar c = false) (hclose : '>' ∉ cs) :
    AbortsUnit inner ('<' :: (cs ++ ['>'])) := by
  refine ⟨⟨'<', _, rfl, by decide, by decide⟩, fun rest => ?_⟩
  have hname : Aborts reference ('<' :: (cs ++ '>' :: rest)) := by
    refine Aborts.expecting (aborts_bind_of_ok (char_cons '<' _) ?_)
    rcases run_before_char hcs hclose ('>' :: rest) with hrefuses | ⟨good, t, hrun, hbad⟩
    · exact hrefuses.fails.cut.bind
    · exact aborts_bind_of_ok (cut_of_ok hrun) hbad.fails.cut.bind
  have htext : '<' :: (cs ++ ['>']) ++ rest = '<' :: (cs ++ '>' :: rest) := by simp
  rw [htext]
  exact aborts_orElse_of_refuses (refuses_enclosed (by decide) _)
    (aborts_orElse_of_refuses (refuses_enclosed (by decide) _).map hname.orElse)

/-! ## Sequences -/

theorem getsStuck_space (hsolid : Solid s) (h : GetsStuck (layout *> repetition inner) s) :
    GetsStuck (layout *> repetition inner) (' ' :: s) := by
  obtain ⟨xs, t, hchain, ht⟩ := h
  cases hchain with
  | nil => exact ⟨[], _, .nil _, by rwa [Aborts, item_space hsolid]⟩
  | cons hx hchain => exact ⟨_, t, .cons ((item_space hsolid).trans hx) hchain, ht⟩

/-- Several items get stuck where the first of them does. -/
theorem sticksItems_intercalate
    (h : ∀ text ∈ texts, (∃ xs, ReadsItems inner text xs) ∨ SticksItems inner text)
    (hsome : ∃ text ∈ texts, SticksItems inner text) : SticksItems inner ([' '].intercalate texts) := by
  induction texts with
  | nil =>
    obtain ⟨text, hmem, -⟩ := hsome
    cases hmem
  | cons text texts ih =>
    rw [List.forall_mem_cons] at h
    cases texts with
    | nil =>
      obtain ⟨_, hmem, htext⟩ := hsome
      rw [List.mem_singleton.mp hmem] at htext
      rwa [List.intercalate_singleton]
    | cons next texts =>
      rw [List.intercalate_cons_cons, List.append_assoc]
      have hfirst (htext : SticksItems inner text) :
          SticksItems inner (text ++ ([' '] ++ [' '].intercalate (next :: texts))) := by
        refine ⟨htext.starts.append _, fun rest => ?_⟩
        rw [List.append_assoc]
        exact htext.items _
      obtain ⟨_, hmem, hsticks⟩ := hsome
      rcases List.mem_cons.mp hmem with rfl | hmem
      · exact hfirst hsticks
      · rcases h.1 with ⟨xs, htext⟩ | htext
        · have hmore := ih h.2 ⟨_, hmem, hsticks⟩
          refine ⟨htext.starts.append _, fun rest => ?_⟩
          rw [List.append_assoc, List.append_assoc]
          exact (getsStuck_space (hmore.starts.solid rest) (hmore.items rest)).after
            (htext.chain _ (apart_cons (by decide) (by decide) (by decide) _))
        · exact hfirst htext

/-! ## Branches -/

theorem aborts_sequence (hinner : Takes inner 0) (h : GetsStuck (layout *> repetition inner) s) :
    Aborts (sequence inner) s := (h.atLeastOnce (takes_item hinner)).expecting.bind

theorem SticksItems.branch (hinner : Takes inner 0) (h : SticksItems inner text) : FailsBranch inner text := by
  refine ⟨h.starts.solid, fun rest => ?_⟩
  exact fails_bind_of_ok (layout_solid (h.starts.solid rest))
    (fails_bind_of_ok (optionally_of_refuses (h.starts.refuses_weight rest))
      (aborts_sequence hinner (h.items rest)).bind.fails)

theorem SticksItems.weighted (hinner : Takes inner 0) (h : SticksItems inner text) {w : Single}
    (hsigned : w.signed = false) (hfinite : w.isFinite = true) :
    FailsBranch inner ('/' :: w.text ++ '/' :: ' ' :: text) := by
  refine ⟨fun rest => weighted_append w text rest ▸ solid_weight hsigned hfinite _, fun rest => ?_⟩
  rw [weighted_append]
  exact fails_bind_of_ok (layout_solid (solid_weight hsigned hfinite _))
    (fails_bind_of_ok (optionally_of_ok (weight_text hsigned hfinite _))
      (aborts_sequence hinner (getsStuck_space (h.starts.solid rest) (h.items rest))).bind.fails)

/-- A sign is no part of a weight, and nothing else starts with a slash. -/
theorem failsBranch_signed {w : Single} (hsigned : w.signed = true) (hfinite : w.isFinite = true) (text : List Char) :
    FailsBranch inner ('/' :: w.text ++ '/' :: ' ' :: text) := by
  obtain ⟨ds, hw⟩ := Single.text_of_signed hsigned hfinite
  have hsolid (t : List Char) : Solid ('/' :: '-' :: t) := solid_slash (by decide) (by decide) t
  rw [hw]
  refine ⟨fun rest => hsolid _, fun rest => ?_⟩
  have hweight (t : List Char) : Refuses weight ('/' :: '-' :: t) :=
    refuses_bind_of_ok (char_cons '/' _) (refuses_run (stops_cons (by decide) t)).bind.bind
  have hitem (t : List Char) : Refuses (layout *> repetition inner) ('/' :: '-' :: t) :=
    refuses_seqRight_of_ok (layout_solid (hsolid t)) (refuses_unit (by decide) (by decide) _).bind
  exact fails_bind_of_ok (layout_solid (hsolid _)) (fails_bind_of_ok (optionally_of_refuses (hweight _))
    (hitem _).bind.expecting.bind.fails.bind)

theorem ends_bars_of_mem (h : text ∈ texts) (rest : List Char) :
    Ends (texts.flatMap (' ' :: '|' :: ' ' :: ·) ++ rest) := by
  cases texts with
  | nil => cases h
  | cons => exact .inr ⟨_, rfl⟩

/-- The branches after the first one get stuck where one of them fails. -/
theorem getsStuck_branches (h : ∀ text ∈ texts, (∃ x, ReadsBranch inner text x) ∨ FailsBranch inner text)
    (hsome : ∃ text ∈ texts, FailsBranch inner text) (rest : List Char) :
    GetsStuck (layout *> char '|' *> cut (branch inner)) (texts.flatMap (' ' :: '|' :: ' ' :: ·) ++ rest) := by
  induction texts with
  | nil =>
    obtain ⟨text, hmem, -⟩ := hsome
    cases hmem
  | cons text texts ih =>
    rw [List.forall_mem_cons] at h
    rw [List.flatMap_cons, List.append_assoc]
    have hfirst (htext : FailsBranch inner text) : GetsStuck (layout *> char '|' *> cut (branch inner))
        (' ' :: '|' :: ' ' :: text ++ (texts.flatMap (' ' :: '|' :: ' ' :: ·) ++ rest)) := by
      refine Aborts.getsStuck ?_
      rw [Aborts]
      exact (nextBranch_bar (htext.solid _)).symm ▸ (htext.branch _).cut
    obtain ⟨_, hmem, hfails⟩ := hsome
    rcases List.mem_cons.mp hmem with rfl | hmem
    · exact hfirst hfails
    · rcases h.1 with ⟨x, htext⟩ | htext
      · have hread := (nextBranch_bar (htext.solid _)).trans (cut_of_ok (htext.branch _ (ends_bars_of_mem hmem rest)))
        exact (ih h.2 ⟨_, hmem, hfails⟩).after (.cons hread (.nil _))
      · exact hfirst htext

/-- Branches with bars between them fail if one of them does. -/
theorem failsWhole_intercalate (hinner : Takes inner 0)
    (h : ∀ text ∈ texts, (∃ x, ReadsBranch inner text x) ∨ FailsBranch inner text)
    (hsome : ∃ text ∈ texts, FailsBranch inner text) :
    FailsWhole (branches inner) ([' ', '|', ' '].intercalate texts) := by
  cases texts with
  | nil =>
    obtain ⟨text, hmem, -⟩ := hsome
    cases hmem
  | cons text texts =>
    rw [List.forall_mem_cons] at h
    rw [intercalate_bars]
    have hfirst (htext : FailsBranch inner text) :
        FailsWhole (branches inner) (text ++ texts.flatMap (' ' :: '|' :: ' ' :: ·)) :=
      ⟨fun rest => by rw [List.append_assoc]; exact htext.solid _,
        fun rest => by rw [List.append_assoc]; exact (htext.branch _).bind⟩
    obtain ⟨_, hmem, hfails⟩ := hsome
    rcases List.mem_cons.mp hmem with rfl | hmem
    · exact hfirst hfails
    · rcases h.1 with ⟨x, htext⟩ | htext
      · refine ⟨fun rest => by rw [List.append_assoc]; exact htext.solid _, fun rest => ?_⟩
        rw [List.append_assoc]
        exact fails_bind_of_ok (htext.branch _ (ends_bars_of_mem hmem rest))
          ((getsStuck_branches h.2 ⟨_, hmem, hfails⟩ rest).many (takes_nextBranch hinner)).bind.fails
      · exact hfirst htext

theorem SticksItems.whole {n : Nat} (h : SticksItems (expansionWithin n) text) :
    FailsWhole (expansionWithin (n + 1)) text := by
  have hbranch := h.branch (takes_nested n)
  have hbranches := failsWhole_intercalate (takes_nested n) (List.forall_mem_singleton.mpr (.inr hbranch))
    ⟨text, List.mem_singleton.mpr rfl, hbranch⟩
  rwa [List.intercalate_singleton] at hbranches

/-! ## Illegible components -/

open Component (parenthesize print)

/-- Where the component is written, reading fails. -/
structure Illegible (c : Component) : Prop where
  whole : ∀ n, c.print.length ≤ n → FailsWhole (expansionWithin n) c.print
  items : ∀ n, (itemText c).length ≤ n + 2 → SticksItems (expansionWithin n) (itemText c)
  unit : ∀ n, (unitText c).length ≤ n + 2 → AbortsUnit (expansionWithin n) (unitText c)

theorem abortsUnit_of_whole (hwhole : ∀ n, c.print.length ≤ n → FailsWhole (expansionWithin n) c.print)
    (hunit : c.needsGroup = false → ∀ inner, AbortsUnit inner c.print) (n : Nat) (hn : (unitText c).length ≤ n + 2) :
    AbortsUnit (expansionWithin n) (unitText c) := by
  cases hgroup : c.needsGroup with
  | true =>
    rw [unitText_of hgroup, length_group] at hn
    rw [unitText_of hgroup]
    exact (hwhole n (by omega)).group
  | false =>
    rw [unitText_of_not hgroup]
    exact hunit hgroup _

theorem illegible_of_items (hc : c.isAlternatives = false)
    (hread : ∀ n, c.print.length ≤ n + 2 → SticksItems (expansionWithin n) c.print)
    (hunit : c.needsGroup = false → ∀ inner, AbortsUnit inner c.print) : Illegible c := by
  have hwhole (n : Nat) (hn : c.print.length ≤ n) : FailsWhole (expansionWithin n) c.print := by
    obtain ⟨d, ds, hd, -⟩ := (hread c.print.length (by omega)).starts
    cases n with
    | zero => simp [hd] at hn
    | succ n => exact (hread n (by omega)).whole
  refine ⟨hwhole, fun n hn => ?_, abortsUnit_of_whole hwhole hunit⟩
  rw [itemText_of_not hc] at hn ⊢
  exact hread n hn

theorem illegible_reference {r : Reference} (hclear : ¬ r.Clear) (hcontained : r.Contained) :
    Illegible (.reference r) := by
  have hbad : ∃ c ∈ r.inner, isReferenceChar c = false := by
    simpa only [Reference.Clear, not_forall, exists_prop, Bool.not_eq_true] using hclear
  have hunit (inner : Reader Component) : AbortsUnit inner (Component.reference r).print := by
    rw [print, r.print_eq]
    exact abortsUnit_name hbad hcontained
  exact illegible_of_items rfl (fun _ _ => (hunit _).items) fun _ => hunit

/-- The component is read where it is written, or reading fails there. -/
def Decided (c : Component) : Prop := (∃ xs, Legible c xs) ∨ Illegible c

theorem Decided.items (h : Decided c) {n : Nat} (hn : (itemText c).length ≤ n + 2) :
    (∃ xs, ReadsItems (expansionWithin n) (itemText c) xs) ∨ SticksItems (expansionWithin n) (itemText c) :=
  h.imp (fun ⟨xs, hread⟩ => ⟨xs, hread.items n hn⟩) fun hfails => hfails.items n hn

theorem illegible_sequence {items : List Component} (h : ∀ c ∈ items, Decided c) (hsome : ∃ c ∈ items, Illegible c) :
    Illegible (.sequence items) := by
  obtain ⟨c, hc, hfails⟩ := hsome
  have hne := List.ne_nil_of_mem hc
  refine illegible_of_items rfl (fun n hn => ?_) fun hgroup => absurd hgroup (by simpa [Component.needsGroup] using hne)
  rw [print_sequence hne] at hn ⊢
  have hlength (c : Component) (hc : c ∈ items) : (itemText c).length ≤ n + 2 :=
    (length_le_intercalate (List.mem_map_of_mem hc)).trans hn
  exact sticksItems_intercalate (List.forall_mem_map.mpr fun c hc => (h c hc).items (hlength c hc))
    ⟨_, List.mem_map_of_mem hc, hfails.items n (hlength c hc)⟩

theorem illegible_count {body : Component} {min : Nat} {max : Bound} (h : Illegible body) (p : Option Single)
    (hparts : Component.repetitionParts (unitText body) body.print min max ≠ []) :
    Illegible (.count body min max p) := by
  refine illegible_of_items rfl (fun n hn => ?_) nofun
  rw [print_count, if_neg hparts] at hn ⊢
  have hall : ∀ part ∈ Component.repetitionParts (unitText body) body.print min max,
      SticksItems (expansionWithin n) part := by
    intro part hpart
    have hlength := (length_le_intercalate hpart).trans hn
    cases max with
    | indefinite =>
      rcases List.mem_append.mp hpart with hpart | hpart
      · obtain ⟨-, rfl⟩ := List.mem_replicate.mp hpart
        exact (h.unit n hlength).items
      · obtain rfl := List.mem_singleton.mp hpart
        rw [List.length_append] at hlength
        exact ((h.unit n (by omega)).append _).items
    | finite max =>
      rcases List.mem_append.mp hpart with hpart | hpart
      · obtain ⟨-, rfl⟩ := List.mem_replicate.mp hpart
        exact (h.unit n hlength).items
      · obtain ⟨-, rfl⟩ := List.mem_replicate.mp hpart
        rw [List.length_append, List.length_cons, List.length_singleton] at hlength
        exact (h.whole n (by omega)).bracket.items
  obtain ⟨part, hpart⟩ := List.exists_mem_of_ne_nil _ hparts
  exact sticksItems_intercalate (fun part hpart => .inr (hall part hpart)) ⟨part, hpart, hall part hpart⟩

/-- A branch with a weight is read, or it fails because of the weight or because of its items. -/
theorem weighted_cases (hinner : Takes inner 0) {w : Single} (hfinite : w.isFinite = true)
    (h : (∃ xs, ReadsItems inner text xs) ∨ SticksItems inner text) :
    ((∃ x, ReadsBranch inner ('/' :: w.text ++ '/' :: ' ' :: text) x) ∨
        FailsBranch inner ('/' :: w.text ++ '/' :: ' ' :: text)) ∧
      (w.signed = true ∨ SticksItems inner text → FailsBranch inner ('/' :: w.text ++ '/' :: ' ' :: text)) := by
  cases hsigned : w.signed with
  | true =>
    have hfails : FailsBranch inner ('/' :: w.text ++ '/' :: ' ' :: text) := failsBranch_signed hsigned hfinite text
    exact ⟨.inr hfails, fun _ => hfails⟩
  | false =>
    refine ⟨h.imp (fun ⟨xs, hread⟩ => ⟨_, hread.weighted hinner hsigned hfinite⟩)
      fun hfails => hfails.weighted hinner hsigned hfinite, ?_⟩
    rintro (htrue | hfails)
    · cases htrue
    · exact hfails.weighted hinner hsigned hfinite

/-- Branches with weights are read or fail, and one of them fails if a weight has a sign or items get stuck. -/
theorem weigh_cases (hinner : Takes inner 0) {ws : List Single}
    (h : ∀ text ∈ texts, (∃ xs, ReadsItems inner text xs) ∨ SticksItems inner text) (hlength : ws.length = texts.length)
    (hfinite : ∀ w ∈ ws, w.isFinite = true) :
    (∀ text ∈ Component.weigh texts ws, (∃ x, ReadsBranch inner text x) ∨ FailsBranch inner text) ∧
      ((∃ w ∈ ws, w.signed = true) ∨ (∃ text ∈ texts, SticksItems inner text) →
        ∃ text ∈ Component.weigh texts ws, FailsBranch inner text) := by
  induction texts generalizing ws with
  | nil =>
    obtain rfl := List.length_eq_zero_iff.mp hlength
    simp [Component.weigh]
  | cons text texts ih =>
    obtain ⟨w, ws, rfl⟩ := List.exists_cons_of_length_eq_add_one hlength
    rw [List.forall_mem_cons] at h hfinite
    obtain ⟨hfirst, hfirstFails⟩ := weighted_cases hinner hfinite.1 h.1
    obtain ⟨hrest, hrestFails⟩ := ih h.2 (Nat.succ.inj hlength) hfinite.2
    refine ⟨List.forall_mem_cons.mpr ⟨hfirst, hrest⟩, ?_⟩
    simp only [Component.weigh, List.exists_mem_cons_iff]
    rintro ((hw | hw) | (htext | htext))
    · exact .inl (hfirstFails (.inl hw))
    · exact .inr (hrestFails (.inl hw))
    · exact .inl (hfirstFails (.inr htext))
    · exact .inr (hrestFails (.inr htext))

/-- Branches with the weights that they have, if any. -/
theorem branches_cases (hinner : Takes inner 0) {weights : Option (List Single)}
    (h : ∀ text ∈ texts, (∃ xs, ReadsItems inner text xs) ∨ SticksItems inner text)
    (hweights : ∀ ws, weights = some ws → ws.length = texts.length ∧ ∀ w ∈ ws, w.isFinite = true) :
    (∀ text ∈ Component.weigh texts (weights.getD []), (∃ x, ReadsBranch inner text x) ∨ FailsBranch inner text) ∧
      ((∃ w ∈ weights.getD [], w.signed = true) ∨ (∃ text ∈ texts, SticksItems inner text) →
        ∃ text ∈ Component.weigh texts (weights.getD []), FailsBranch inner text) := by
  cases weights with
  | none =>
    have hplain : Component.weigh texts [] = texts := by cases texts <;> rfl
    rw [Option.getD_none, hplain]
    refine ⟨fun text hmem => (h text hmem).imp (fun ⟨xs, hread⟩ => ⟨_, hread.branch hinner⟩) (·.branch hinner), ?_⟩
    rintro (⟨w, hw, -⟩ | ⟨text, hmem, hsticks⟩)
    · cases hw
    · exact ⟨text, hmem, hsticks.branch hinner⟩
  | some ws => exact weigh_cases hinner h (hweights ws rfl).1 (hweights ws rfl).2

/-- A component that is decided is written with at least one character. -/
theorem Decided.length_pos (h : Decided c) : 0 < (itemText c).length := by
  have hstarts : Starts (itemText c) := by
    rcases h.items (Nat.le_add_right _ 2) with ⟨xs, hread⟩ | hsticks
    · exact hread.starts
    · exact hsticks.starts
  obtain ⟨d, ds, htext, -⟩ := hstarts
  rw [htext]
  exact Nat.succ_pos _

theorem illegible_alternatives {branches : List Component} {weights : Option (List Single)}
    (h : ∀ c ∈ branches, Decided c)
    (hweights : ∀ ws, weights = some ws → ws.length = branches.length ∧ ∀ w ∈ ws, w.isFinite = true)
    (hsome : (∃ w ∈ weights.getD [], w.signed = true) ∨ ∃ c ∈ branches, Illegible c) :
    Illegible (.alternatives branches weights) := by
  have hne : branches ≠ [] := by
    rintro rfl
    rcases hsome with ⟨w, hw, -⟩ | ⟨c, hc, -⟩
    · cases weights with
      | none => cases hw
      | some ws =>
        rw [Option.getD_some, List.length_eq_zero_iff.mp (hweights ws rfl).1] at hw
        cases hw
    · cases hc
  have hwhole (n : Nat) (hn : (Component.alternatives branches weights).print.length ≤ n) :
      FailsWhole (expansionWithin n) (Component.alternatives branches weights).print := by
    -- each branch is as long as it is alone, so its expansions may be nested less deep than the choice
    have hlength (c : Component) (hc : c ∈ branches) : (itemText c).length ≤ n :=
      (length_le_alternatives weights hc).trans hn
    obtain ⟨first, hfirst⟩ := List.exists_mem_of_ne_nil branches hne
    obtain ⟨m, rfl⟩ : ∃ m, n = m + 1 :=
      Nat.exists_eq_add_one.mpr (Nat.lt_of_lt_of_le (h first hfirst).length_pos (hlength first hfirst))
    have hbound (c : Component) (hc : c ∈ branches) : (itemText c).length ≤ m + 2 := Nat.le_succ_of_le (hlength c hc)
    have hitems : ∀ text ∈ branches.map itemText,
        (∃ xs, ReadsItems (expansionWithin m) text xs) ∨ SticksItems (expansionWithin m) text :=
      List.forall_mem_map.mpr fun c hc => (h c hc).items (hbound c hc)
    obtain ⟨hall, hfails⟩ := branches_cases (takes_nested m) hitems (by simpa using hweights)
    rw [print_alternatives hne]
    refine failsWhole_intercalate (takes_nested m) hall (hfails (hsome.imp_right ?_))
    rintro ⟨c, hc, hc'⟩
    exact ⟨_, List.mem_map_of_mem hc, hc'.items m (hbound c hc)⟩
  have hgroup : (Component.alternatives branches weights).needsGroup = true := by simpa [Component.needsGroup] using hne
  have hunit := abortsUnit_of_whole hwhole fun hnot => absurd (hgroup.symm.trans hnot) (by decide)
  refine ⟨hwhole, fun n hn => ?_, hunit⟩
  have hsame : itemText (.alternatives branches weights) = unitText (.alternatives branches weights) := by
    rw [itemText_of rfl, unitText_of hgroup]
  rw [hsame] at hn ⊢
  exact (hunit n hn).items

/-! ## Clear components -/

theorem exists_forall₂ {γ δ : Type} {R : γ → δ → Prop} {as : List γ} (h : ∀ a ∈ as, ∃ b, R a b) :
    ∃ bs, List.Forall₂ R as bs := by
  induction as with
  | nil => exact ⟨[], .nil⟩
  | cons a as ih =>
    rw [List.forall_mem_cons] at h
    obtain ⟨b, hb⟩ := h.1
    obtain ⟨bs, hbs⟩ := ih h.2
    exact ⟨b :: bs, .cons hb hbs⟩

/-- A component is read if it is clear, and else reading fails. -/
def DecidedByClarity (c : Component) : Prop := (c.Clear ∧ ∃ xs, Legible c xs) ∨ (¬ c.Clear ∧ Illegible c)

theorem DecidedByClarity.decided (h : DecidedByClarity c) : Decided c := h.imp And.right And.right

/-- Several components are all clear and legible, or one of them is neither. -/
theorem decidedByClarity_all {cs : List Component} (h : ∀ c ∈ cs, DecidedByClarity c) :
    ((∀ c ∈ cs, c.Clear) ∧ ∃ xss, List.Forall₂ Legible cs xss) ∨
      ((∃ c ∈ cs, ¬ c.Clear) ∧ ∃ c ∈ cs, Illegible c) := by
  by_cases hclear : ∀ c ∈ cs, c.Clear
  · exact .inl ⟨hclear, exists_forall₂ fun c hc => (h c hc).elim And.right fun hnot => absurd (hclear c hc) hnot.1⟩
  · obtain ⟨c, hc, hnot⟩ : ∃ c ∈ cs, ¬ c.Clear := by simpa using hclear
    exact .inr ⟨⟨c, hc, hnot⟩, c, hc, (h c hc).elim (fun hyes => absurd hyes.1 hnot) And.right⟩

mutual

/-- **A component without fault is read where it is written if it is clear, and reading fails if it is not**, as long as
no reference closes its own bracket. -/
theorem legibility : ∀ {c : Component}, c.fault? = none → c.Contained → DecidedByClarity c
  | .token text, _, _ => .inl ⟨trivial, _, legible_of_unit rfl fun _ => readsUnit_token text⟩
  | .tag value, _, _ => .inl ⟨trivial, _, legible_of_unit rfl fun _ => readsUnit_tag value⟩
  | .reference r, hfault, hcontained => by
    by_cases hclear : r.Clear
    · have hread (inner : Reader Component) :
          ReadsUnit inner (Component.reference r).print (namedComponent r.inner) := by
        rw [print, r.print_eq]
        exact readsUnit_name r.inner (Component.inner_ne_nil_of_fault? hfault) hclear
      exact .inl ⟨hclear, _, legible_of_unit rfl hread⟩
    · exact .inr ⟨hclear, illegible_reference hclear hcontained⟩
  | .sequence items, hfault, hcontained => by
    have hall := legibilityAll hfault hcontained
    rcases decidedByClarity_all hall with ⟨hclear, xss, hread⟩ | ⟨⟨c, hc, hnot⟩, hsome⟩
    · exact .inl ⟨Component.writesAll_iff.mpr hclear, _, legible_sequence hread⟩
    · exact .inr ⟨fun h => hnot (Component.writesAll_iff.mp h c hc),
        illegible_sequence (fun c hc => (hall c hc).decided) hsome⟩
  | .alternatives branches weights, hfault, hcontained => by
    rw [Component.fault?, Option.or_eq_none_iff] at hfault
    have hall := legibilityAll hfault.2 hcontained.2
    have hweights := Component.weights_of_weightsFault? hfault.1
    have hillegible := illegible_alternatives (fun c hc => (hall c hc).decided)
      (fun ws hws => (hweights ws hws).imp_right fun hws w hw => (hws w hw).1)
    by_cases hsigned : ∃ w ∈ weights.getD [], w.signed = true
    · refine .inr ⟨fun h => ?_, hillegible (.inl hsigned)⟩
      obtain ⟨w, hw, htrue⟩ := hsigned
      exact absurd (htrue.symm.trans (h.1 w hw)) (by decide)
    · have hunsigned : ∀ w ∈ weights.getD [], w.signed = false := by simpa using hsigned
      rcases decidedByClarity_all hall with ⟨hclear, xss, hread⟩ | ⟨⟨c, hc, hnot⟩, hsome⟩
      · refine .inl ⟨⟨hunsigned, Component.writesAll_iff.mpr hclear⟩, _, legible_alternatives hread fun ws hws => ?_⟩
        subst hws
        exact (hweights ws rfl).imp_right fun hws w hw => ⟨hunsigned w hw, (hws w hw).1⟩
      · exact .inr ⟨fun h => hnot (Component.writesAll_iff.mp h.2 c hc), hillegible (.inr hsome)⟩
  | .count body min max p, hfault, hcontained => by
    simp only [Component.fault?, Option.or_eq_none_iff] at hfault
    by_cases hmax : max = .finite 0
    · exact .inl ⟨fun hne => absurd hmax hne, _,
        legible_count_nothing p ((Component.repetitionParts_eq_nil hfault.1).mpr hmax)⟩
    · rcases legibility hfault.2.2 (hcontained hmax) with ⟨hclear, xs, hread⟩ | ⟨hclear, hfails⟩
      · exact .inl ⟨fun _ => hclear, _, legible_count hread min max p⟩
      · exact .inr ⟨fun h => hclear (h hmax),
          illegible_count hfails p (mt (Component.repetitionParts_eq_nil hfault.1).mp hmax)⟩

theorem legibilityAll : ∀ {cs : List Component}, Component.faultAmong? cs = none →
    Component.WritesAll Reference.Contained (fun _ => True) cs → ∀ c ∈ cs, DecidedByClarity c
  | [], _, _ => nofun
  | c :: cs, hfault, hcontained => by
    rw [Component.faultAmong?, Option.or_eq_none_iff] at hfault
    exact List.forall_mem_cons.mpr ⟨legibility hfault.1 hcontained.1, legibilityAll hfault.2 hcontained.2⟩

end

theorem legible_of_clear (hfault : c.fault? = none) (hclear : c.Clear) : ∃ xs, Legible c xs :=
  (legibility hfault hclear.contained).elim And.right fun h => absurd hclear h.1

/-- Where an illegible component is due, no expansion is read. -/
theorem Illegible.expansion (h : Illegible c) (rest : List Char) :
    Fails Reader.expansion (' ' :: (c.print ++ rest)) := by
  have hwhole := h.whole ((c.print ++ rest).length + 1) (by simp; omega)
  have hread : Fails (expansionWithin ((c.print ++ rest).length + 1)) (' ' :: (c.print ++ rest)) := by
    rw [Fails, expansionWithin, branches_space (hwhole.solid rest)]
    exact hwhole.read rest
  exact hread

end Jsgf.Reader

end SpeechGrammar
