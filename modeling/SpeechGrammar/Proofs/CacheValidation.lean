import SpeechGrammar.Cache.Payload
import SpeechGrammar.Proofs.StoreInvariant

/-!
# Which payloads are states of a grammar

The states that can be stored (`Cache.Storable`) are those whose payload has no fault (**`Payload.fault?_ofSnapshot`**),
and from such a payload the same state is made again (**`Payload.toSnapshot_ofSnapshot`**). Conversely, every payload
without fault gives a state that can be stored (**`Payload.storable_toSnapshot`**), in whatever order its entries are.
-/

namespace SpeechGrammar.Cache

/-- The state can be stored. It is not asked whether the names of the rules can be written in a grammar text. -/
structure Storable (s : Snapshot) : Prop extends s.Consistent where
  named : s.name ≠ ""
  rulesNamed : ∀ e ∈ s.entries, e.rule.name ≠ ""
  bodies : ∀ e ∈ s.entries, e.rule.body.fault? = none

namespace Payload

section

variable {nextId : UInt64} {before es : List Entry} {e : Entry}

/-! ## The faults of entries -/

/-- Two entries may stand in one payload. -/
def Apart (e f : Entry) : Prop := e.name ≠ f.name ∧ e.id ≠ f.id

/-- Nothing is wrong with an entry on its own. -/
def Sound (nextId : UInt64) (e : Entry) : Prop :=
  e.name ≠ "" ∧ e.id < nextId ∧ (e.activatable = true → e.rule.isPublic = true)

theorem ite_some_eq_none_iff {α : Type} {p : Prop} [Decidable p] {a : α} {x : Option α} :
    (if p then some a else x) = none ↔ ¬ p ∧ x = none := by
  split <;> rename_i h <;> simp [h]

theorem entryFault?_eq_none_iff :
    entryFault? nextId before e = none ↔ Sound nextId e ∧ ∀ f ∈ before, Apart f e := by
  simp only [entryFault?, ite_some_eq_none_iff, Sound, Apart, forall₂_and, UInt64.not_le, String.isEmpty_iff,
    List.any_eq_true, beq_iff_eq, Bool.and_eq_true, Bool.not_eq_true', not_exists, not_and, Bool.not_eq_false]
  constructor
  · rintro ⟨hname, hnames, hids, hnext, hactive, -⟩
    exact ⟨⟨hname, hnext, hactive⟩, hnames, hids⟩
  · rintro ⟨⟨hname, hnext, hactive⟩, hnames, hids⟩
    exact ⟨hname, hnames, hids, hnext, hactive, trivial⟩

theorem entriesFault?_eq_none_iff :
    entriesFault? nextId before es = none ↔
      (∀ e ∈ es, Sound nextId e) ∧ es.Pairwise Apart ∧ ∀ f ∈ before, ∀ e ∈ es, Apart f e := by
  induction es generalizing before with
  | nil => simp [entriesFault?]
  | cons e es ih =>
    rw [entriesFault?, Option.or_eq_none_iff, entryFault?_eq_none_iff, ih]
    simp only [List.forall_mem_cons, List.pairwise_cons]
    constructor
    · rintro ⟨⟨hsound, hbefore⟩, hsounds, hpairs, hfirst, hlater⟩
      exact ⟨⟨hsound, hsounds⟩, ⟨hfirst, hpairs⟩, fun f hf => ⟨hbefore f hf, hlater f hf⟩⟩
    · rintro ⟨⟨hsound, hsounds⟩, ⟨hfirst, hpairs⟩, hbefore⟩
      exact ⟨⟨hsound, fun f hf => (hbefore f hf).1⟩, hsounds, hpairs, hfirst, fun f hf => (hbefore f hf).2⟩

theorem pairwise_apart_iff :
    es.Pairwise Apart ↔ (es.map Entry.name).Nodup ∧ (es.map Entry.id).Nodup := by
  rw [List.nodup_iff_pairwise_ne, List.nodup_iff_pairwise_ne, List.pairwise_map, List.pairwise_map]
  exact List.pairwise_and_iff

/-! ## The faults of payloads -/

theorem rootFault?_eq_none_iff {root : Option String} (hnames : (es.map Entry.name).Nodup) :
    rootFault? es root = none ↔
      ∀ name, root = some name → ∃ e ∈ es, e.name = name ∧ e.rule.isPublic = true := by
  cases root with
  | none => exact ⟨fun _ => nofun, fun _ => rfl⟩
  | some name =>
    simp only [rootFault?, Option.some.injEq, forall_eq']
    cases hfind : es.find? (·.name == name) with
    | none =>
      simp only [reduceCtorEq, false_iff, not_exists, not_and]
      intro e he hname
      rw [List.find?_eq_none] at hfind
      exact absurd (beq_iff_eq.mpr hname) (hfind e he)
    | some f =>
      have hf := List.mem_of_find?_eq_some hfind
      have hname : f.name = name := by simpa using List.find?_some hfind
      simp only [ite_eq_left_iff, reduceCtorEq, imp_false, Bool.not_eq_true, Bool.not_eq_false]
      refine ⟨fun hpublic => ⟨f, hf, hname, hpublic⟩, ?_⟩
      rintro ⟨e, he, hsame, hpublic⟩
      rwa [List.inj_on_of_nodup_map hnames hf he (hname.trans hsame.symm)]

theorem shapeFault?_eq_none_iff : shapeFault? es = none ↔ ∀ e ∈ es, e.rule.body.fault? = none := by
  simp only [shapeFault?, List.findSome?_eq_none_iff, Option.map_eq_none_iff]

/-- When a payload has no fault. -/
theorem fault?_eq_none_iff {p : Payload} :
    p.fault? = none ↔
      p.ruleCount = p.rules.length ∧ p.name ≠ "" ∧ (∀ e ∈ p.rules, Sound p.nextId e) ∧
        ((p.rules.map Entry.name).Nodup ∧ (p.rules.map Entry.id).Nodup) ∧
        (∀ name, p.root = some name → ∃ e ∈ p.rules, e.name = name ∧ e.rule.isPublic = true) ∧
        ∀ e ∈ p.rules, e.rule.body.fault? = none := by
  simp only [fault?, ite_some_eq_none_iff, ne_eq, not_not, String.isEmpty_iff, Option.or_eq_none_iff,
    entriesFault?_eq_none_iff, pairwise_apart_iff, shapeFault?_eq_none_iff]
  constructor
  · rintro ⟨hcount, hname, ⟨hsound, hdistinct, -⟩, hroot, hbodies⟩
    exact ⟨hcount, hname, hsound, hdistinct, (rootFault?_eq_none_iff hdistinct.1).mp hroot, hbodies⟩
  · rintro ⟨hcount, hname, hsound, hdistinct, hroot, hbodies⟩
    exact ⟨hcount, hname, ⟨hsound, hdistinct, List.forall_mem_nil _⟩, (rootFault?_eq_none_iff hdistinct.1).mpr hroot, hbodies⟩

/-! ## The order of the entries -/

theorem place_perm : (Snapshot.place e es).Perm (e :: es) := by
  induction es with
  | nil => exact .refl _
  | cons f fs ih =>
    rw [Snapshot.place]
    split
    · exact .refl _
    · exact (ih.cons f).trans (.swap e f fs)

theorem place_ascending (hes : es.Pairwise (·.id < ·.id)) (he : ∀ f ∈ es, f.id ≠ e.id) :
    (Snapshot.place e es).Pairwise (·.id < ·.id) := by
  induction es with
  | nil => exact List.pairwise_singleton _ _
  | cons f fs ih =>
    rw [List.forall_mem_cons] at he
    obtain ⟨hfirst, hrest⟩ := List.pairwise_cons.mp hes
    rw [Snapshot.place]
    split
    · rename_i hlt
      refine List.pairwise_cons.mpr ⟨List.forall_mem_cons.mpr ⟨hlt, fun g hg => ?_⟩, hes⟩
      exact UInt64.lt_trans hlt (hfirst g hg)
    · rename_i hle
      refine List.pairwise_cons.mpr ⟨fun g hg => ?_, ih hrest he.2⟩
      rcases Snapshot.mem_place.mp hg with rfl | hg
      · exact UInt64.lt_of_le_of_ne (UInt64.not_lt.mp hle) he.1
      · exact hfirst g hg

/-- Placing entries one after the other keeps them all. -/
theorem placeAll_perm : (es.foldl (fun es e => Snapshot.place e es) before).Perm (before ++ es) := by
  induction es generalizing before with
  | nil => simp
  | cons e es ih =>
    rw [List.foldl_cons]
    exact ih.trans ((place_perm.append_right es).trans List.perm_middle.symm)

/-- Entries with different ids are put in ascending order. -/
theorem placeAll_ascending (hbefore : before.Pairwise (·.id < ·.id)) (hids : ((before ++ es).map Entry.id).Nodup) :
    (es.foldl (fun es e => Snapshot.place e es) before).Pairwise (·.id < ·.id) := by
  induction es generalizing before with
  | nil => exact hbefore
  | cons e es ih =>
    rw [List.foldl_cons]
    have hperm : (Snapshot.place e before ++ es).Perm (before ++ e :: es) :=
      (place_perm.append_right es).trans List.perm_middle.symm
    refine ih (place_ascending hbefore fun f hf => ?_) ((hperm.map Entry.id).nodup_iff.mpr hids)
    rw [List.map_append, List.nodup_append] at hids
    exact hids.2.2 f.id (List.mem_map_of_mem hf) e.id List.mem_cons_self

/-- Entries in ascending order stay in it. -/
theorem placeAll_of_ascending (h : (before ++ es).Pairwise (·.id < ·.id)) :
    es.foldl (fun es e => Snapshot.place e es) before = before ++ es := by
  induction es generalizing before with
  | nil => rw [List.foldl_nil, List.append_nil]
  | cons e es ih =>
    have hlast : ∀ f ∈ before, f.id < e.id := fun f hf => (List.pairwise_append.mp h).2.2 f hf e List.mem_cons_self
    rw [List.append_cons] at h
    rw [List.foldl_cons, Snapshot.place_eq_append hlast, ih h, ← List.append_cons]

/-! ## Payloads and states -/

variable {s : Snapshot} {p : Payload} {d : Option (List UInt8)}

/-- **The payload of a state that can be stored has no fault.** -/
theorem fault?_ofSnapshot (h : Storable s) : (ofSnapshot s d).fault? = none := by
  rw [fault?_eq_none_iff]
  refine ⟨rfl, h.named, fun e he => ⟨h.rulesNamed e he, h.below e he, h.activatable e he⟩, ⟨h.names, ?_⟩, h.root,
    h.bodies⟩
  exact h.toConsistent.logged.ids

/-- **A state is made again from its own payload.** -/
theorem toSnapshot_ofSnapshot (h : s.Consistent) : (ofSnapshot s d).toSnapshot = s := by
  have hplaced : s.entries.foldl (fun es e => Snapshot.place e es) [] = [] ++ s.entries :=
    placeAll_of_ascending h.ascending
  simp only [toSnapshot, ofSnapshot, hplaced, List.nil_append]

/-- **A payload without fault gives a state that can be stored.** -/
theorem storable_toSnapshot (h : p.fault? = none) : Storable p.toSnapshot := by
  obtain ⟨-, hname, hsound, ⟨hnames, hids⟩, hroot, hbodies⟩ := fault?_eq_none_iff.mp h
  have hperm : p.toSnapshot.entries.Perm p.rules := placeAll_perm
  have hmem : ∀ {e}, e ∈ p.toSnapshot.entries → e ∈ p.rules := hperm.mem_iff.mp
  exact {
    names := (hperm.map Entry.name).nodup_iff.mpr hnames
    ascending := placeAll_ascending List.Pairwise.nil hids
    below := fun e he => (hsound e (hmem he)).2.1
    activatable := fun e he => (hsound e (hmem he)).2.2
    root := fun name hr => by
      obtain ⟨e, he, hpublic⟩ := hroot name hr
      exact ⟨e, hperm.mem_iff.mpr he, hpublic⟩
    named := hname
    rulesNamed := fun e he => (hsound e (hmem he)).1
    bodies := fun e he => hbodies e (hmem he) }

end

end Payload

end SpeechGrammar.Cache
