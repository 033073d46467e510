import SpeechGrammar.Grammar.Basic
import Mathlib.Algebra.Group.Nat.Defs
import Mathlib.Data.List.Nodup

/-!
# The invariant of snapshots

What holds of every committed state (`Snapshot.Valid`), and of the state together with all entries that were ever added
to it (`Snapshot.Logged`). A change that does not fail is one of five steps (`Snapshot.apply_cases`); each of them keeps
the invariant as long as the ids last (**`Snapshot.Logged.apply`**), and so do several changes, whichever of them fail
(**`Snapshot.Logged.applyAll`**).
-/

namespace SpeechGrammar

/-- A rule that is to be added has no fault. -/
def Change.Checked (c : Change) : Prop := ∀ rule, c = .add rule → Grammar.ruleFault? rule = none

namespace Snapshot

/-- Some rule of this name is there and public. -/
def HasPublic (s : Snapshot) (name : String) : Prop := ∃ e ∈ s.entries, e.name = name ∧ e.rule.isPublic = true

/-- The fields of a state fit together. The first two clauses say that the entries stand for a table of rules by name
which is listed in the order of the ids. -/
structure Consistent (s : Snapshot) : Prop where
  names : (s.entries.map Entry.name).Nodup
  ascending : s.entries.Pairwise (·.id < ·.id)
  below : ∀ e ∈ s.entries, e.id < s.nextId
  activatable : ∀ e ∈ s.entries, e.activatable = true → e.rule.isPublic = true
  root : ∀ name, s.explicitRoot = some name → s.HasPublic name

/-- What holds of every committed state: it is consistent, and each of its rules could be added. -/
structure Valid (s : Snapshot) : Prop extends s.Consistent where
  rules : ∀ e ∈ s.entries, Grammar.ruleFault? e.rule = none

/-- The state is consistent, and the log has every entry that was ever added, each with an id of its own. -/
structure Logged (s : Snapshot) (log : List Entry) : Prop where
  consistent : s.Consistent
  ids : (log.map Entry.id).Nodup
  given : ∀ e ∈ log, e.id < s.nextId
  covered : ∀ e ∈ s.entries, ∃ f ∈ log, f.rule = e.rule ∧ f.id = e.id

section

variable {s t : Snapshot} {log : List Entry} {name : String} {e : Entry}

/-! ## Reading a consistent state -/

/-- What is found is there and has the name. -/
theorem mem_of_find? (h : s.find? name = some e) : e ∈ s.entries ∧ e.name = name :=
  ⟨List.mem_of_find?_eq_some h, by simpa using List.find?_some h⟩

theorem find?_eq_none_iff : s.find? name = none ↔ name ∉ s.entries.map Entry.name := by
  simp [find?, List.find?_eq_none]

/-- Entries with the same name are the same entry. -/
theorem Consistent.eq_of_name (h : s.Consistent) {f : Entry} (he : e ∈ s.entries) (hf : f ∈ s.entries)
    (hn : e.name = f.name) : e = f := List.inj_on_of_nodup_map h.names he hf hn

/-- Every entry is found under its own name. -/
theorem Consistent.find?_name (h : s.Consistent) (he : e ∈ s.entries) : s.find? e.name = some e := by
  cases hf : s.find? e.name with
  | none => exact absurd (List.mem_map_of_mem he) (find?_eq_none_iff.mp hf)
  | some f =>
    obtain ⟨hmem, hn⟩ := mem_of_find? hf
    rw [h.eq_of_name hmem he hn]

/-- The root is an existing public rule, whether it was set or chosen. -/
theorem Consistent.hasPublic_root (h : s.Consistent) (hr : s.root = some name) : s.HasPublic name := by
  unfold Snapshot.root at hr
  cases hx : s.explicitRoot with
  | some root =>
    rw [hx, Option.some_or, Option.some.injEq] at hr
    subst hr
    exact h.root root hx
  | none =>
    rw [hx, Option.none_or, Option.map_eq_some_iff] at hr
    obtain ⟨e, hf, rfl⟩ := hr
    have hactive : e.isActive = true := List.find?_some hf
    simp only [Entry.isActive, Bool.and_eq_true] at hactive
    exact ⟨e, List.mem_of_find?_eq_some hf, rfl, hactive.1⟩

theorem empty_consistent (name : String) (locale : Option String) : (empty name locale).Consistent where
  names := List.nodup_nil
  ascending := List.Pairwise.nil
  below := by simp [empty]
  activatable := by simp [empty]
  root := by simp [empty]

/-- The log of a state of which no more is known has the entries that are in it. -/
theorem Consistent.logged (h : s.Consistent) : s.Logged s.entries where
  consistent := h
  ids := by
    rw [List.nodup_iff_pairwise_ne, List.pairwise_map]
    exact h.ascending.imp UInt64.ne_of_lt
  given := h.below
  covered := fun e he => ⟨e, he, rfl, rfl⟩

/-- What holds of all rules of the log holds of those that are there. -/
theorem Logged.forall_rule (h : s.Logged log) {P : Rule → Prop} (hlog : ∀ e ∈ log, P e.rule) :
    ∀ e ∈ s.entries, P e.rule := by
  intro e he
  obtain ⟨f, hf, hrule, -⟩ := h.covered e he
  exact hrule ▸ hlog f hf

/-! ## The steps -/

theorem requirePublic_ok {use : PublicUse} (h : s.requirePublic use name = .ok ()) : s.HasPublic name := by
  unfold requirePublic at h
  split at h
  · cases h
  · rename_i e hf
    obtain ⟨he, hn⟩ := mem_of_find? hf
    split at h
    · rename_i hp
      exact ⟨e, he, hn, hp⟩
    · cases h

theorem requireAllPublic_ok {use : PublicUse} :
    ∀ {names : List String}, s.requireAllPublic use names = .ok () → ∀ name ∈ names, s.HasPublic name
  | [], _ => by simp
  | first :: names, h => by
    simp only [requireAllPublic] at h
    split at h
    · cases h
    · rename_i hfirst
      simp only [List.mem_cons, forall_eq_or_imp]
      exact ⟨requirePublic_ok hfirst, requireAllPublic_ok h⟩

/-- What a change does if it does not fail. -/
theorem apply_cases {c : Change} {changed : Bool} (h : s.apply c = .ok (t, changed)) :
    (∃ rule, c = .add rule ∧ rule.name ∉ s.entries.map Entry.name ∧ t = s.insert rule ∧ changed = true) ∨
    (∃ name, c = .remove name ∧ t = s.erase name) ∨
    (∃ names enabled, c = .setActivatable names enabled ∧ (∀ name ∈ names, s.HasPublic name) ∧
      t = s.activate names enabled) ∨
    (c = .setRoot none ∧ t = { s with explicitRoot := none }) ∨
    (∃ name, c = .setRoot (some name) ∧ s.HasPublic name ∧ t = { s with explicitRoot := some name }) := by
  cases c with
  | add rule =>
    simp only [apply] at h
    split at h
    · cases h
    · rename_i hn
      rw [Bool.not_eq_true, Option.isSome_eq_false_iff, Option.isNone_iff_eq_none, find?_eq_none_iff] at hn
      cases h
      exact .inl ⟨rule, rfl, hn, rfl, rfl⟩
  | remove name =>
    simp only [apply] at h
    split at h
    · cases h
      exact .inr (.inl ⟨name, rfl, rfl⟩)
    · cases h
  | setActivatable names enabled =>
    simp only [apply] at h
    split at h
    · cases h
    · rename_i hall
      cases h
      exact .inr (.inr (.inl ⟨names, enabled, rfl, requireAllPublic_ok hall, rfl⟩))
  | setRoot root =>
    cases root with
    | none =>
      cases h
      exact .inr (.inr (.inr (.inl ⟨rfl, rfl⟩)))
    | some name =>
      simp only [apply] at h
      split at h
      · cases h
      · rename_i hp
        cases h
        exact .inr (.inr (.inr (.inr ⟨name, rfl, requirePublic_ok hp, rfl⟩)))

/-! ## Adding a rule -/

/-- The id of an addition is that of the snapshot, and the next one is greater by one while the ids last. -/
theorem toNat_nextId_insert {rule : Rule} (room : s.nextId.toNat + 1 < 2 ^ 64) :
    (s.insert rule).nextId.toNat = s.nextId.toNat + 1 := by
  simp only [insert, UInt64.toNat_add, UInt64.toNat_one]
  omega

theorem nextId_lt_insert {rule : Rule} (room : s.nextId.toNat + 1 < 2 ^ 64) : s.nextId < (s.insert rule).nextId := by
  rw [UInt64.lt_iff_toNat_lt, toNat_nextId_insert room]
  omega

/-- An entry whose id is greater than all others comes last. -/
theorem place_eq_append {es : List Entry} (h : ∀ f ∈ es, f.id < e.id) : place e es = es ++ [e] := by
  induction es with
  | nil => rfl
  | cons f fs ih =>
    have hlt : ¬ e.id < f.id := UInt64.not_lt.mpr (UInt64.le_of_lt (h f List.mem_cons_self))
    rw [place, if_neg hlt, ih fun g hg => h g (List.mem_cons_of_mem f hg), List.cons_append]

theorem Consistent.insert_entries (h : s.Consistent) (rule : Rule) :
    (s.insert rule).entries = s.entries ++ [⟨rule, s.nextId, rule.isPublic⟩] := place_eq_append h.below

theorem mem_insert {rule : Rule} :
    e ∈ (s.insert rule).entries ↔ e = ⟨rule, s.nextId, rule.isPublic⟩ ∨ e ∈ s.entries := mem_place

theorem Consistent.insert (h : s.Consistent) {rule : Rule} (hn : rule.name ∉ s.entries.map Entry.name)
    (room : s.nextId.toNat + 1 < 2 ^ 64) : (s.insert rule).Consistent where
  names := by
    rw [h.insert_entries, List.map_append, List.nodup_append]
    refine ⟨h.names, List.nodup_singleton _, ?_⟩
    rintro name hname _ hnew rfl
    rw [List.map_singleton, List.mem_singleton] at hnew
    subst hnew
    exact hn hname
  ascending := by
    rw [h.insert_entries, List.pairwise_append]
    refine ⟨h.ascending, List.pairwise_singleton _ _, fun e he f hf => ?_⟩
    rw [List.mem_singleton] at hf
    subst hf
    exact h.below e he
  below := by
    intro e he
    rcases mem_insert.mp he with rfl | he
    · exact nextId_lt_insert room
    · exact UInt64.lt_trans (h.below e he) (nextId_lt_insert room)
  activatable := by
    intro e he
    rcases mem_insert.mp he with rfl | he
    · exact id
    · exact h.activatable e he
  root := by
    intro name hr
    obtain ⟨e, he, hpublic⟩ := h.root name hr
    exact ⟨e, mem_insert.mpr (.inr he), hpublic⟩

/-! ## The other changes -/

theorem Consistent.erase (h : s.Consistent) (name : String) : (s.erase name).Consistent where
  names := h.names.sublist (List.Sublist.map _ List.filter_sublist)
  ascending := h.ascending.sublist List.filter_sublist
  below := fun e he => h.below e (List.mem_filter.mp he).1
  activatable := fun e he => h.activatable e (List.mem_filter.mp he).1
  root := by
    -- the root is kept only if it is not the rule that goes
    intro root hr
    simp only [Snapshot.erase, Option.filter_eq_some_iff] at hr
    obtain ⟨hr, hne⟩ := hr
    obtain ⟨e, he, rfl, hpublic⟩ := h.root root hr
    exact ⟨e, List.mem_filter.mpr ⟨he, hne⟩, rfl, hpublic⟩

/-- Activation leaves the rules and their ids. -/
theorem activate_entry {names : List String} {enabled : Bool} (he : e ∈ (s.activate names enabled).entries) :
    ∃ f ∈ s.entries, f.rule = e.rule ∧ f.id = e.id ∧ (e.activatable = f.activatable ∨ e.name ∈ names) := by
  obtain ⟨f, hf, rfl⟩ := List.mem_map.mp he
  refine ⟨f, hf, ?_⟩
  split
  · rename_i hn
    exact ⟨rfl, rfl, .inr (List.contains_iff_mem.mp hn)⟩
  · exact ⟨rfl, rfl, .inl rfl⟩

theorem HasPublic.activate {names : List String} {enabled : Bool} (h : s.HasPublic name) :
    (s.activate names enabled).HasPublic name := by
  obtain ⟨e, he, hn, hpublic⟩ := h
  refine ⟨_, List.mem_map_of_mem he, ?_⟩
  split <;> exact ⟨hn, hpublic⟩

theorem Consistent.activate (h : s.Consistent) {names : List String} (hall : ∀ name ∈ names, s.HasPublic name)
    (enabled : Bool) : (s.activate names enabled).Consistent where
  names := by
    have hsame : (s.activate names enabled).entries.map Entry.name = s.entries.map Entry.name := by
      simp only [Snapshot.activate, List.map_map]
      refine List.map_congr_left fun e _ => ?_
      simp only [Function.comp_apply]
      split <;> rfl
    rw [hsame]
    exact h.names
  ascending := by
    simp only [Snapshot.activate, List.pairwise_map]
    refine h.ascending.imp fun hlt => ?_
    split <;> split <;> exact hlt
  below := by
    intro e he
    obtain ⟨f, hf, -, hid, -⟩ := activate_entry he
    exact hid ▸ h.below f hf
  activatable := by
    intro e he hactive
    obtain ⟨f, hf, hrule, -, hsame | hn⟩ := activate_entry he
    · exact hrule ▸ h.activatable f hf (hsame ▸ hactive)
    · obtain ⟨g, hg, hgn, hpublic⟩ := hall e.name hn
      have hfg : f.name = g.name := by rw [hgn, Entry.name, Entry.name, hrule]
      rw [← hrule, h.eq_of_name hf hg hfg]
      exact hpublic
  root := fun name hr => (h.root name hr).activate

theorem Consistent.withRoot (h : s.Consistent) {root : Option String}
    (hroot : ∀ name, root = some name → s.HasPublic name) :
    ({ s with explicitRoot := root } : Snapshot).Consistent := ⟨h.names, h.ascending, h.below, h.activatable, hroot⟩

/-! ## The step with its log -/

/-- The entry that a change adds if it does not fail. -/
def given (s : Snapshot) : Change → List Entry
  | .add rule => [⟨rule, s.nextId, rule.isPublic⟩]
  | _ => []

/-- A step that adds nothing keeps the log. -/
theorem Logged.keep (h : s.Logged log) (ht : t.Consistent) (hid : t.nextId = s.nextId)
    (hentries : ∀ e ∈ t.entries, ∃ f ∈ s.entries, f.rule = e.rule ∧ f.id = e.id) : t.Logged log where
  consistent := ht
  ids := h.ids
  given := hid ▸ h.given
  covered := by
    intro e he
    obtain ⟨f, hf, hrule, hid⟩ := hentries e he
    obtain ⟨g, hg, hrule', hid'⟩ := h.covered f hf
    exact ⟨g, hg, hrule'.trans hrule, hid'.trans hid⟩

theorem Logged.insert (h : s.Logged log) {rule : Rule} (hn : rule.name ∉ s.entries.map Entry.name)
    (room : s.nextId.toNat + 1 < 2 ^ 64) :
    (s.insert rule).Logged (log ++ [⟨rule, s.nextId, rule.isPublic⟩]) where
  consistent := h.consistent.insert hn room
  ids := by
    rw [List.map_append, List.nodup_append]
    refine ⟨h.ids, List.nodup_singleton _, ?_⟩
    rintro id hid _ hnew rfl
    rw [List.map_singleton, List.mem_singleton] at hnew
    obtain ⟨e, he, rfl⟩ := List.mem_map.mp hid
    exact UInt64.ne_of_lt (h.given e he) hnew
  given := by
    intro e he
    rw [List.mem_append, List.mem_singleton] at he
    rcases he with he | rfl
    · exact UInt64.lt_trans (h.given e he) (nextId_lt_insert room)
    · exact nextId_lt_insert room
  covered := by
    intro e he
    rcases mem_insert.mp he with rfl | he
    · exact ⟨_, List.mem_append_right _ (List.mem_singleton.mpr rfl), rfl, rfl⟩
    · obtain ⟨f, hf, hsame⟩ := h.covered e he
      exact ⟨f, List.mem_append_left _ hf, hsame⟩

/-- **A change that does not fail keeps the invariant**, and its entry goes to the log under the next id. -/
theorem Logged.apply (h : s.Logged log) {c : Change} {changed : Bool}
    (room : s.nextId.toNat + (s.given c).length < 2 ^ 64) (happly : s.apply c = .ok (t, changed)) :
    t.Logged (log ++ s.given c) ∧ t.nextId.toNat = s.nextId.toNat + (s.given c).length := by
  obtain ⟨rule, rfl, hn, rfl, -⟩ | ⟨name, rfl, rfl⟩ | ⟨names, enabled, rfl, hall, rfl⟩ | ⟨rfl, rfl⟩ |
    ⟨name, rfl, hpublic, rfl⟩ := apply_cases happly
  · exact ⟨h.insert hn room, toNat_nextId_insert room⟩
  · simp only [Snapshot.given, List.append_nil]
    exact ⟨h.keep (h.consistent.erase name) rfl fun e he => ⟨e, (List.mem_filter.mp he).1, rfl, rfl⟩, rfl⟩
  · simp only [Snapshot.given, List.append_nil]
    refine ⟨h.keep (h.consistent.activate hall enabled) rfl fun e he => ?_, rfl⟩
    obtain ⟨f, hf, hrule, hid, -⟩ := activate_entry he
    exact ⟨f, hf, hrule, hid⟩
  · simp only [Snapshot.given, List.append_nil]
    exact ⟨h.keep (h.consistent.withRoot fun _ hr => by cases hr) rfl fun e he => ⟨e, he, rfl, rfl⟩, rfl⟩
  · simp only [Snapshot.given, List.append_nil]
    refine ⟨h.keep (h.consistent.withRoot fun root hr => ?_) rfl fun e he => ⟨e, he, rfl, rfl⟩, rfl⟩
    cases hr
    exact hpublic

/-! ## Several changes -/

/-- The entries that the changes add, without those of changes that fail. -/
def additions (s : Snapshot) : List Change → List Entry
  | [] => []
  | c :: cs =>
    match s.apply c with
    | .ok (t, _) => s.given c ++ t.additions cs
    | .error _ => s.additions cs

/-- **Several changes keep the invariant**, whichever of them fail. -/
theorem Logged.applyAll {cs : List Change} (h : s.Logged log)
    (room : s.nextId.toNat + (s.additions cs).length < 2 ^ 64) :
    (s.applyAll cs).snapshot.Logged (log ++ s.additions cs) ∧
      (s.applyAll cs).snapshot.nextId.toNat = s.nextId.toNat + (s.additions cs).length := by
  induction cs generalizing s log with
  | nil => simpa [Snapshot.applyAll, additions] using h
  | cons c cs ih =>
    cases happly : s.apply c with
    | error fault =>
      simp only [Snapshot.applyAll, additions, happly] at room ⊢
      exact ih h room
    | ok result =>
      obtain ⟨t, changed⟩ := result
      simp only [Snapshot.applyAll, additions, happly, List.length_append] at room ⊢
      obtain ⟨ht, hid⟩ := h.apply (by omega) happly
      obtain ⟨hlast, hlastId⟩ := ih ht (by omega)
      rw [List.append_assoc] at hlast
      exact ⟨hlast, by omega⟩

/-- Only rules that have been checked are added. -/
theorem additions_checked {cs : List Change} (hcs : ∀ c ∈ cs, c.Checked) :
    ∀ e ∈ s.additions cs, Grammar.ruleFault? e.rule = none := by
  induction cs generalizing s with
  | nil => exact nofun
  | cons c cs ih =>
    rw [List.forall_mem_cons] at hcs
    simp only [additions]
    split
    · rw [List.forall_mem_append]
      refine ⟨fun e he => ?_, ih hcs.2⟩
      cases c with
      | add rule =>
        rw [List.mem_singleton.mp he]
        exact hcs.1 rule rfl
      | _ => cases he
    · exact ih hcs.2

/-- Changes that make no difference add nothing. -/
theorem additions_eq_nil {cs : List Change} (h : (s.applyAll cs).changed = false) : s.additions cs = [] := by
  induction cs generalizing s with
  | nil => rfl
  | cons c cs ih =>
    cases happly : s.apply c with
    | error fault =>
      simp only [Snapshot.applyAll, additions, happly] at h ⊢
      exact ih h
    | ok result =>
      obtain ⟨t, changed⟩ := result
      simp only [Snapshot.applyAll, additions, happly, Bool.or_eq_false_iff] at h ⊢
      rw [ih h.2, List.append_nil]
      cases c with
      | add rule =>
        obtain ⟨_, _, _, _, hchanged⟩ | ⟨_, hc, _⟩ | ⟨_, _, hc, _⟩ | ⟨hc, _⟩ | ⟨_, hc, _⟩ := apply_cases happly
        · exact absurd (h.1.symm.trans hchanged) (by decide)
        all_goals cases hc
      | _ => rfl

/-- **A commit keeps the invariant**, whether it publishes a new state or keeps the old one. -/
theorem Logged.publish {cs : List Change} (h : s.Logged log)
    (room : s.nextId.toNat + (s.additions cs).length < 2 ^ 64) :
    (s.publish (s.applyAll cs)).Logged (log ++ s.additions cs) ∧
      (s.publish (s.applyAll cs)).nextId.toNat = s.nextId.toNat + (s.additions cs).length := by
  unfold Snapshot.publish
  split
  · obtain ⟨ht, hid⟩ := h.applyAll room
    refine ⟨ht.keep ?_ rfl fun e he => ⟨e, he, rfl, rfl⟩, hid⟩
    have hv := ht.consistent
    exact ⟨hv.names, hv.ascending, hv.below, hv.activatable, hv.root⟩
  · rename_i hchanged
    rw [additions_eq_nil (Bool.not_eq_true _ ▸ hchanged), List.append_nil]
    exact ⟨h, rfl⟩

end

end Snapshot

end SpeechGrammar
