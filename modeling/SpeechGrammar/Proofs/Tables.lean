import SpeechGrammar.Proofs.Roster

/-!
# States as tables

A table is how the rules of a state are kept: each under its name, in no order. Where the order in which they were added
matters, they are sorted by their ids when they are read. A change checks and writes in place (`Table.apply`).

A table stands for a state (`Table.Keeps`) if the same is found under each name, and each consistent state has one
(`Table.keeps_ofSnapshot`). In the order of their ids the rules of the table are the entries of the state
(**`Table.Keeps.ordered_eq`**), and all that is read of the one is what is read of the other (**`Table.Keeps.reads`**).
-/

namespace SpeechGrammar

/-- A committed state of a grammar as it is kept. -/
structure Table where
  name : String
  locale : Option String
  /-- The entries under the names of their rules. -/
  rules : Std.HashMap String Entry
  explicitRoot : Option String
  nextId : UInt64
  generation : UInt64

namespace Table

/-! ## Reading a table -/

/-- The entries, in no order. -/
def values (t : Table) : List Entry := t.rules.toList.map Prod.snd

/-- The entries in the order of their ids. -/
def ordered (t : Table) : List Entry := t.values.mergeSort fun e f => e.id ≤ f.id

/-- The entry with the least id. -/
def least? : List Entry → Option Entry
  | [] => none
  | e :: es =>
    match least? es with
    | some f => if f.id < e.id then some f else some e
    | none => some e

/-- The rule of a name. -/
def rule? (t : Table) (name : String) : Option Rule := t.rules[name]?.map Entry.rule

/-- The rule is there and can be activated. -/
def isActivatable (t : Table) (name : String) : Bool := t.rules[name]?.any Entry.activatable

/-- The names of the rules, in the order in which they were added. -/
def ruleNames (t : Table) : List String := t.ordered.map Entry.name

/-- The rule that was set as the root, or else the active one that was added first. -/
def root (t : Table) : Option String :=
  match t.explicitRoot with
  | some root => some root
  | none => (least? (t.values.filter Entry.isActive)).map Entry.name

/-- The rules that are tried when none is named: the explicit root, if it can be activated, and then the other active
rules in the order in which they were added. -/
def candidates (t : Table) : List String :=
  let root := t.explicitRoot.filter t.isActivatable
  root.toList ++ (t.ordered.filter fun e => e.isActive && root != some e.name).map Entry.name

/-- The grammar text, with the rules in the order in which they were added. -/
def jsgf (t : Table) : String :=
  String.ofList (Snapshot.printHeader t.locale ++ "grammar ".toList ++ t.name.toList ++ ";\n".toList ++
    t.ordered.flatMap (fun e => '\n' :: e.rule.print) ++ ['\n'])

/-! ## Changing a table -/

/-- Steps that look at a table and write into it. What is written stays, also if a later step fails. -/
abbrev Edit := ExceptT GrammarError (StateM Table)

/-- Looks whether a rule is there and public. -/
def requirePublic (use : PublicUse) (name : String) : Edit Unit := do
  match (← get).rules[name]? with
  | none => throw (.undefinedRule name)
  | some e => if !e.rule.isPublic then throw (.notPublic name use)

/-- Looks whether all rules are there and public. -/
def requireAllPublic (use : PublicUse) : List String → Edit Unit
  | [] => pure ()
  | name :: names => do
    requirePublic use name
    requireAllPublic use names

/-- Lets the named rules be activated, or not, and tells whether something is different now. -/
def activate (enabled : Bool) (changed : Bool) : List String → Edit Bool
  | [] => pure changed
  | name :: names => do
    match (← get).rules[name]? with
    | none => activate enabled changed names
    | some e =>
      modify fun t => { t with rules := t.rules.insert name { e with activatable := enabled } }
      activate enabled (changed || e.activatable != enabled) names

/-- Makes a change, and tells whether something is different now. -/
def apply : Change → Edit Bool
  | .add rule => do
    if (← get).rules.contains rule.name then throw (.duplicateRule rule.name)
    let id := (← get).nextId
    modify fun t => { t with nextId := id + 1 }
    modify fun t => { t with rules := t.rules.insert rule.name ⟨rule, id, rule.isPublic⟩ }
    pure true
  | .remove name => do
    let removed := (← get).rules[name]?
    modify fun t => { t with rules := t.rules.erase name }
    if removed.isNone then throw (.undefinedRule name)
    if (← get).explicitRoot = some name then modify fun t => { t with explicitRoot := none }
    pure true
  | .setActivatable names enabled => do
    requireAllPublic .activation names
    activate enabled false names
  | .setRoot none => do
    let root := (← get).explicitRoot
    modify fun t => { t with explicitRoot := none }
    pure root.isSome
  | .setRoot (some name) => do
    requirePublic .root name
    let root := (← get).explicitRoot
    modify fun t => { t with explicitRoot := some name }
    pure (root != some name)

/-- What has come of the changes that have been made. -/
structure Tally where
  changed : Bool
  applied : Nat
  failures : List GrammarError

/-- Makes the changes one after the other. -/
def applyAll (t : Table) (tally : Tally) : List Change → Table × Tally
  | [] => (t, tally)
  | c :: cs =>
    match (apply c).run.run t with
    | (.ok changed, t') =>
      t'.applyAll { tally with changed := tally.changed || changed, applied := tally.applied + 1 } cs
    | (.error e, t') => t'.applyAll { tally with failures := tally.failures ++ [e] } cs

/-! ## Standing for a state -/

/-- The same is found under each name, and the rest is the same. -/
structure Keeps (t : Table) (s : Snapshot) : Prop where
  name : t.name = s.name
  locale : t.locale = s.locale
  rules : ∀ name, t.rules[name]? = s.find? name
  explicitRoot : t.explicitRoot = s.explicitRoot
  nextId : t.nextId = s.nextId
  generation : t.generation = s.generation

section

variable {t t' : Table} {s : Snapshot} {name : String} {e : Entry} {es fs : List Entry}

/-- The table of a state. -/
def ofSnapshot (s : Snapshot) : Table :=
  ⟨s.name, s.locale, .ofList (s.entries.map fun e => (e.name, e)), s.explicitRoot, s.nextId, s.generation⟩

/-- The table of a state stands for it. -/
theorem keeps_ofSnapshot (h : s.Consistent) : (ofSnapshot s).Keeps s where
  name := rfl
  locale := rfl
  rules name := by
    have hdistinct : (s.entries.map fun e => (e.name, e)).Pairwise fun p q => (p.1 == q.1) = false := by
      rw [List.pairwise_map]
      exact (List.pairwise_map.mp h.names).imp fun hne => beq_eq_false_iff_ne.mpr hne
    cases hfind : s.find? name with
    | some e =>
      obtain ⟨he, rfl⟩ := Snapshot.mem_of_find? hfind
      exact Std.HashMap.getElem?_ofList_of_mem BEq.rfl hdistinct (List.mem_map_of_mem he)
    | none =>
      refine Std.HashMap.getElem?_ofList_of_contains_eq_false ?_
      rw [List.map_map, List.contains_eq_mem, decide_eq_false_iff_not]
      exact Snapshot.find?_eq_none_iff.mp hfind
  explicitRoot := rfl
  nextId := rfl
  generation := rfl

/-! ## Reading what stands for a state -/

theorem Keeps.mem_toList_iff (h : t.Keeps s) (hs : s.Consistent) :
    (name, e) ∈ t.rules.toList ↔ e ∈ s.entries ∧ e.name = name := by
  rw [Std.HashMap.mem_toList_iff_getElem?_eq_some, h.rules]
  constructor
  · exact Snapshot.mem_of_find?
  · rintro ⟨he, rfl⟩
    exact hs.find?_name he

/-- The table has the entries of the state. -/
theorem Keeps.values_perm (h : t.Keeps s) (hs : s.Consistent) : t.values.Perm s.entries := by
  have hkeys : t.rules.toList.Nodup := by
    refine Std.HashMap.distinct_keys_toList.imp fun {p q} hne heq => ?_
    rw [heq, beq_self_eq_true] at hne
    cases hne
  have hentries : (s.entries.map fun e => (e.name, e)).Nodup :=
    List.Nodup.of_map Prod.fst (by rw [List.map_map]; exact hs.names)
  have hperm : t.rules.toList.Perm (s.entries.map fun e => (e.name, e)) := by
    refine (List.perm_ext_iff_of_nodup hkeys hentries).mpr fun ⟨name, e⟩ => ?_
    rw [h.mem_toList_iff hs, List.mem_map]
    grind
  have hsame : (s.entries.map fun e => (e.name, e)).map Prod.snd = s.entries := by simp [Function.comp_def]
  exact hsame ▸ hperm.map Prod.snd

theorem ordered_pairwise (t : Table) : t.ordered.Pairwise (·.id ≤ ·.id) := by
  have hsorted : t.ordered.Pairwise fun e f => decide (e.id ≤ f.id) = true := by
    refine List.pairwise_mergeSort (fun e f g hef hfg => ?_) (fun e f => ?_) t.values
    · exact decide_eq_true (UInt64.le_trans (of_decide_eq_true hef) (of_decide_eq_true hfg))
    · rw [Bool.or_eq_true, decide_eq_true_iff, decide_eq_true_iff]
      exact UInt64.le_total e.id f.id
  exact hsorted.imp of_decide_eq_true

/-- Entries of a state with the same id are the same. -/
theorem eq_of_id (hs : es.Pairwise (·.id < ·.id)) {f : Entry} (he : e ∈ es) (hf : f ∈ es) (hid : e.id = f.id) : e = f :=
  List.inj_on_of_nodup_map (List.nodup_iff_pairwise_ne.mpr (List.pairwise_map.mpr (hs.imp UInt64.ne_of_lt))) he hf hid

/-- **In the order of their ids the rules of a table are the entries of the state.** -/
theorem Keeps.ordered_eq (h : t.Keeps s) (hs : s.Consistent) : t.ordered = s.entries := by
  have hperm : t.ordered.Perm s.entries := (List.mergeSort_perm _ _).trans (h.values_perm hs)
  have hsorted : s.entries.Pairwise (·.id ≤ ·.id) := hs.ascending.imp UInt64.le_of_lt
  refine List.Perm.eq_of_pairwise (fun e f he hf hef hfe => ?_) t.ordered_pairwise hsorted hperm
  exact eq_of_id hs.ascending (hperm.mem_iff.mp he) hf (UInt64.le_antisymm hef hfe)

theorem least?_eq_none_iff : least? es = none ↔ es = [] := by
  cases es with
  | nil => exact ⟨fun _ => rfl, fun _ => rfl⟩
  | cons e es =>
    rw [least?]
    cases least? es with
    | none => simp
    | some f => simp only; split <;> simp

theorem least?_le (h : least? es = some e) : e ∈ es ∧ ∀ f ∈ es, e.id ≤ f.id := by
  induction es generalizing e with
  | nil => cases h
  | cons g es ih =>
    rw [least?] at h
    cases hrest : least? es with
    | none =>
      rw [hrest] at h
      cases h
      simp [least?_eq_none_iff.mp hrest]
    | some f =>
      obtain ⟨hf, hle⟩ := ih hrest
      rw [hrest] at h
      dsimp only at h
      split at h
      · rename_i hlt
        cases h
        exact ⟨List.mem_cons_of_mem g hf, List.forall_mem_cons.mpr ⟨UInt64.le_of_lt hlt, hle⟩⟩
      · rename_i hnot
        cases h
        have hfirst : ∀ f' ∈ es, g.id ≤ f'.id := fun f' hf' => UInt64.le_trans (UInt64.not_lt.mp hnot) (hle f' hf')
        exact ⟨List.mem_cons_self, List.forall_mem_cons.mpr ⟨UInt64.le_refl _, hfirst⟩⟩

/-- The entry with the least id is the first one in the order of the ids. -/
theorem least?_eq_head? (hperm : es.Perm fs) (hasc : fs.Pairwise (·.id < ·.id)) : least? es = fs.head? := by
  cases fs with
  | nil => rw [hperm.eq_nil]; rfl
  | cons f fs =>
    cases hleast : least? es with
    | none =>
      rw [least?_eq_none_iff.mp hleast] at hperm
      cases hperm.nil_eq
    | some e =>
      obtain ⟨he, hle⟩ := least?_le hleast
      rcases List.mem_cons.mp (hperm.mem_iff.mp he) with rfl | he'
      · rfl
      · have hlt := (List.pairwise_cons.mp hasc).1 e he'
        exact absurd (hle f (hperm.mem_iff.mpr List.mem_cons_self)) (UInt64.not_le.mpr hlt)

theorem Keeps.isActivatable_eq (h : t.Keeps s) (name : String) : t.isActivatable name = s.isActivatable name := by
  rw [isActivatable, h.rules, Snapshot.isActivatable]

/-- **What is read of a table is what is read of the state.** -/
theorem Keeps.reads (h : t.Keeps s) (hs : s.Consistent) :
    (∀ name, t.rule? name = s.rule? name) ∧ (∀ name, t.isActivatable name = s.isActivatable name) ∧
      t.ruleNames = s.ruleNames ∧ t.root = s.root ∧ t.candidates = s.candidates ∧ t.jsgf = s.jsgf := by
  refine ⟨fun name => ?_, h.isActivatable_eq, ?_, ?_, ?_, ?_⟩
  · rw [rule?, h.rules, Snapshot.rule?]
  · rw [ruleNames, h.ordered_eq hs, Snapshot.ruleNames]
  · have hleast := least?_eq_head? ((h.values_perm hs).filter Entry.isActive) (hs.ascending.sublist List.filter_sublist)
    rw [List.head?_filter] at hleast
    rw [root, hleast, Snapshot.root, h.explicitRoot]
    cases s.explicitRoot <;> rfl
  · have hroot : t.explicitRoot.filter t.isActivatable = s.explicitRoot.filter s.isActivatable := by
      rw [h.explicitRoot, funext h.isActivatable_eq]
    simp only [candidates, Snapshot.candidates, hroot, h.ordered_eq hs]
    rw [List.filter_map, List.filter_filter]
    simp [Bool.and_comm]
  · rw [jsgf, h.ordered_eq hs, h.locale, h.name, Snapshot.jsgf, Snapshot.print]

end

end Table

end SpeechGrammar
