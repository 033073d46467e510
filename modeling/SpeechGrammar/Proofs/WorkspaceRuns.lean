import SpeechGrammar.Proofs.CacheRoundTrip
import SpeechGrammar.Workspace

/-!
# What becomes of a workspace

The workspaces that there can be are those that operations make out of an empty one (`Workspace.Reachable`): grammars
are created, loaded, restored and deleted, others are kept without a name, and each of them may be changed at any time.
In all of them every rule that has been committed has a body without fault, and every registered name leads to a grammar
of this name (**`Workspace.Reachable.sound`**).
-/

namespace SpeechGrammar

/-! ## Snapshots and grammars -/

namespace Snapshot

variable {s t : Snapshot} {P : Rule → Prop}

/-- A change adds no rule but the one it is about, and it renames nothing. -/
theorem apply_keeps {c : Change} {changed : Bool} (h : s.apply c = .ok (t, changed))
    (hs : ∀ e ∈ s.entries, P e.rule) (hc : ∀ rule, c = .add rule → P rule) :
    (∀ e ∈ t.entries, P e.rule) ∧ t.name = s.name ∧ t.locale = s.locale := by
  obtain ⟨rule, rfl, -, rfl, -⟩ | ⟨name, rfl, rfl⟩ | ⟨names, enabled, rfl, -, rfl⟩ | ⟨rfl, rfl⟩ | ⟨name, rfl, -, rfl⟩ :=
    apply_cases h
  · refine ⟨fun e he => ?_, rfl, rfl⟩
    rcases mem_insert.mp he with rfl | he
    · exact hc rule rfl
    · exact hs e he
  · exact ⟨fun e he => hs e (List.mem_filter.mp he).1, rfl, rfl⟩
  · refine ⟨fun e he => ?_, rfl, rfl⟩
    obtain ⟨f, hf, hrule, -⟩ := activate_entry he
    exact hrule ▸ hs f hf
  · exact ⟨hs, rfl, rfl⟩
  · exact ⟨hs, rfl, rfl⟩

theorem applyAll_keeps {cs : List Change} (hs : ∀ e ∈ s.entries, P e.rule)
    (hcs : ∀ c ∈ cs, ∀ rule, c = .add rule → P rule) :
    (∀ e ∈ (s.applyAll cs).snapshot.entries, P e.rule) ∧ (s.applyAll cs).snapshot.name = s.name ∧
      (s.applyAll cs).snapshot.locale = s.locale := by
  induction cs generalizing s with
  | nil => exact ⟨hs, rfl, rfl⟩
  | cons c cs ih =>
    rw [List.forall_mem_cons] at hcs
    cases happly : s.apply c with
    | error fault =>
      simp only [applyAll, happly]
      exact ih hs hcs.2
    | ok result =>
      obtain ⟨t, changed⟩ := result
      simp only [applyAll, happly]
      obtain ⟨ht, hname, hlocale⟩ := apply_keeps happly hs hcs.1
      obtain ⟨hlast, hlastName, hlastLocale⟩ := ih ht hcs.2
      exact ⟨hlast, hlastName.trans hname, hlastLocale.trans hlocale⟩

theorem publish_keeps {cs : List Change} (hs : ∀ e ∈ s.entries, P e.rule)
    (hcs : ∀ c ∈ cs, ∀ rule, c = .add rule → P rule) :
    (∀ e ∈ (s.publish (s.applyAll cs)).entries, P e.rule) ∧ (s.publish (s.applyAll cs)).name = s.name ∧
      (s.publish (s.applyAll cs)).locale = s.locale := by
  unfold publish
  split
  · exact applyAll_keeps hs hcs
  · exact ⟨hs, rfl, rfl⟩

end Snapshot

namespace Grammar

/-- The queued rules have been checked, and the committed ones have bodies without fault. -/
structure Sound (g : Grammar) : Prop where
  queued : g.Checked
  bodies : ∀ e ∈ g.committed.entries, e.rule.body.fault? = none

variable {g : Grammar}

theorem sound_empty (name : String) (locale : Option String) (options : SearchOptions) (linked : Bool) :
    (ofSnapshot (.empty name locale) options linked).Sound := ⟨checked_ofSnapshot, nofun⟩

theorem sound_of_decode {bs : List UInt8} {s : Snapshot} (h : Cache.decode bs = .ok s) (options : SearchOptions)
    (linked : Bool) : (ofSnapshot s options linked).Sound :=
  ⟨checked_ofSnapshot, (Cache.storable_of_decode h).bodies⟩

theorem decode_eq_ok {bs : List UInt8} (h : decode bs = .ok g) :
    ∃ s, Cache.decode bs = .ok s ∧ g = ofSnapshot s .default false := by
  unfold decode at h
  cases hs : Cache.decode bs with
  | error e => rw [hs] at h; cases h
  | ok s => rw [hs] at h; cases h; exact ⟨s, rfl, rfl⟩

/-- A commit keeps what holds of the committed rules and of those in the queue, and it keeps the name. -/
theorem commit_keeps {P : Rule → Prop} (hs : ∀ e ∈ g.committed.entries, P e.rule)
    (hq : ∀ c ∈ g.pending, ∀ rule, c = .add rule → P rule) :
    (∀ e ∈ g.commit.1.committed.entries, P e.rule) ∧ g.commit.1.committed.name = g.committed.name ∧
      g.commit.1.committed.locale = g.committed.locale :=
  Snapshot.publish_keeps hs fun c hc => hq c (mem_commitOrder.mp hc)

theorem Checked.body_of_add (h : g.Checked) : ∀ c ∈ g.pending, ∀ rule, c = .add rule → rule.body.fault? = none :=
  fun c hc rule hr => (ruleFault?_eq_none_iff.mp (h c hc rule hr)).2

/-- **An operation keeps a grammar sound.** -/
theorem Sound.perform (h : g.Sound) (o : Operation) : (g.perform o).Sound := by
  refine ⟨h.queued.perform o, ?_⟩
  by_cases ho : o = .commit
  · subst ho
    exact (commit_keeps h.bodies h.queued.body_of_add).1
  · rw [(perform_committed ho).1]
    exact h.bodies

/-- An operation keeps the name of the grammar. -/
theorem name_perform (g : Grammar) (o : Operation) : (g.perform o).name = g.name := by
  by_cases ho : o = .commit
  · subst ho
    exact (commit_keeps (P := fun _ => True) (fun _ _ => trivial) fun _ _ _ _ => trivial).2.1
  · exact congrArg Snapshot.name (perform_committed ho).1

/-- An operation keeps the locale of the grammar. -/
theorem locale_perform (g : Grammar) (o : Operation) : (g.perform o).committed.locale = g.committed.locale := by
  by_cases ho : o = .commit
  · subst ho
    exact (commit_keeps (P := fun _ => True) (fun _ _ => trivial) fun _ _ _ _ => trivial).2.2
  · exact congrArg Snapshot.locale (perform_committed ho).1

/-- Rules come into the queue together, if nothing is wrong with any of them. -/
theorem addRules_eq_ok_iff {rules : List Rule} {next : Grammar} :
    g.addRules rules = .ok next ↔
      (∀ rule ∈ rules, ruleFault? rule = none) ∧ next = { g with pending := g.pending ++ rules.map .add } := by
  induction rules generalizing g with
  | nil =>
    simp only [addRules, Except.ok.injEq, List.not_mem_nil, false_implies, implies_true, List.map_nil,
      List.append_nil, true_and]
    exact eq_comm
  | cons rule rules ih =>
    simp only [addRules, addRule, List.forall_mem_cons]
    cases ruleFault? rule with
    | some fault => simp
    | none =>
      simp only [true_and]
      rw [ih]
      simp only [enqueue, List.map_cons, List.append_assoc, List.cons_append, List.nil_append]

end Grammar

/-! ## Workspaces -/

namespace Workspace

/-- The workspaces that there can be. -/
inductive Reachable : Workspace → Prop
  | empty {options} : Reachable (empty options)
  | create {w w' name root locale h} : Reachable w → w.create name root locale = .ok (h, w') → Reachable w'
  | load {w w' source h} : Reachable w → w.load source = .ok (h, w') → Reachable w'
  | restore {w w' bytes h} : Reachable w → w.restore bytes = .ok (h, w') → Reachable w'
  | delete {w w' name h} : Reachable w → w.delete name = .ok (h, w') → Reachable w'
  | clear {w} : Reachable w → Reachable w.clear
  | keepEmpty {w name locale options} : Reachable w → Reachable (w.keep (.empty name locale options)).2
  | keepDecoded {w bytes g} : Reachable w → Grammar.decode bytes = .ok g → Reachable (w.keep g).2
  | perform {w} (h : Handle) (o : Operation) : Reachable w → Reachable (w.modify h (·.perform o))

/-- All grammars are sound, and the registered names are distinct and lead to grammars of these names. -/
structure Sound (w : Workspace) : Prop where
  grammars : ∀ g ∈ w.grammars, g.Sound
  registered : ∀ name h, (name, h) ∈ w.registered → ∃ g, w.grammar? h = some g ∧ g.name = name
  names : (w.registered.map Prod.fst).Nodup

variable {w w' : Workspace} {g : Grammar} {h : Handle} {name : String}

/-! ## Looking up names -/

theorem handle?_eq_none_iff : w.handle? name = none ↔ name ∉ w.registered.map Prod.fst := by
  simp only [handle?, List.lookup_eq_none_iff, List.mem_map, bne_iff_ne, ne_eq, not_exists, not_and]
  exact forall₂_congr fun _ _ => not_congr eq_comm

/-! ## Operations -/

theorem sound_empty (options : SearchOptions) : (empty options).Sound := ⟨nofun, nofun, List.nodup_nil⟩

theorem mem_grammars_of_grammar? (hg : w.grammar? h = some g) : g ∈ w.grammars := Array.mem_of_getElem? hg

/-- A grammar that is taken in is found under the new handle, and the others stay where they are. -/
theorem grammar?_keep_new (w : Workspace) (g : Grammar) : (w.keep g).2.grammar? (w.keep g).1 = some g := by
  simp [keep, grammar?]

theorem grammar?_keep_old (w : Workspace) (g : Grammar) {old : Grammar} (hold : w.grammar? h = some old) :
    (w.keep g).2.grammar? h = some old := by
  have hlt : h < w.grammars.size := (Array.getElem?_eq_some_iff.mp hold).1
  simp only [keep, grammar?, Array.getElem?_push, Nat.ne_of_lt hlt, ↓reduceIte]
  exact hold

theorem Sound.keep (hw : w.Sound) (hg : g.Sound) : (w.keep g).2.Sound where
  grammars := by
    intro f hf
    rcases Array.mem_push.mp hf with hf | rfl
    · exact hw.grammars f hf
    · exact hg
  registered := by
    intro name h hmem
    obtain ⟨old, hold, hname⟩ := hw.registered name h hmem
    exact ⟨old, grammar?_keep_old w g hold, hname⟩
  names := hw.names

/-- What registration does if the name is free. -/
theorem register_eq_ok_iff :
    w.register g = .ok (h, w') ↔
      w.handle? g.name = none ∧ h = (w.keep g).1 ∧
        w' = { (w.keep g).2 with registered := (g.name, h) :: w.registered } := by
  unfold register
  cases hfree : w.handle? g.name with
  | some old => simp
  | none =>
    simp only [Option.isSome_none, Bool.false_eq_true, ↓reduceIte, Except.ok.injEq, Prod.mk.injEq, true_and]
    constructor
    · rintro ⟨rfl, rfl⟩
      exact ⟨rfl, rfl⟩
    · rintro ⟨rfl, rfl⟩
      exact ⟨rfl, rfl⟩

theorem Sound.register (hw : w.Sound) (hg : g.Sound) (hr : w.register g = .ok (h, w')) : w'.Sound := by
  obtain ⟨hfree, rfl, rfl⟩ := register_eq_ok_iff.mp hr
  have hkept := hw.keep hg
  refine ⟨hkept.grammars, fun name h hmem => ?_, ?_⟩
  · rcases List.mem_cons.mp hmem with hnew | hold
    · obtain ⟨rfl, rfl⟩ := Prod.mk.inj hnew
      exact ⟨g, grammar?_keep_new w g, rfl⟩
    · exact hkept.registered name h hold
  · rw [List.map_cons, List.nodup_cons]
    exact ⟨handle?_eq_none_iff.mp hfree, hw.names⟩

theorem Sound.modify (hw : w.Sound) (h : Handle) (o : Operation) : (w.modify h (·.perform o)).Sound where
  grammars := by
    intro f hf
    obtain ⟨i, hi⟩ := Array.getElem?_of_mem hf
    simp only [Workspace.modify, Array.getElem?_modify] at hi
    split at hi
    · obtain ⟨g, hg, rfl⟩ := Option.map_eq_some_iff.mp hi
      exact (hw.grammars g (Array.mem_of_getElem? hg)).perform o
    · exact hw.grammars f (Array.mem_of_getElem? hi)
  registered := by
    intro name i hmem
    obtain ⟨g, hg, hname⟩ := hw.registered name i hmem
    simp only [grammar?, Workspace.modify, Array.getElem?_modify]
    simp only [grammar?] at hg
    split
    · exact ⟨g.perform o, by rw [hg]; rfl, (g.name_perform o).trans hname⟩
    · exact ⟨g, hg, hname⟩
  names := hw.names

/-- What is left of the names after some of them are removed. -/
theorem Sound.restrict (hw : w.Sound) (p : String × Handle → Bool) :
    ({ w with registered := w.registered.filter p } : Workspace).Sound where
  grammars := hw.grammars
  registered := fun name h hmem => hw.registered name h (List.mem_filter.mp hmem).1
  names := hw.names.sublist (List.Sublist.map _ List.filter_sublist)

/-! ## Loading -/

/-- The grammar of a document before its rules are committed. -/
def queued (w : Workspace) (doc : Jsgf.Document) : Grammar :=
  { w.linkedGrammar (.empty doc.name doc.locale) with pending := doc.rules.map .add }

/-- A document gives a grammar if each of its rules may be queued and none of the additions fails. -/
theorem grammarOf_eq_ok_iff {doc : Jsgf.Document} :
    w.grammarOf doc = .ok g ↔
      (∀ rule ∈ doc.rules, Grammar.ruleFault? rule = none) ∧ g = (w.queued doc).commit.1 ∧
        ∃ changed, (w.queued doc).commit.2 = .ok changed := by
  unfold grammarOf
  cases hadd : (w.linkedGrammar (.empty doc.name doc.locale)).addRules doc.rules with
  | error e =>
    simp only [reduceCtorEq, false_iff, not_and]
    intro hall
    rw [Grammar.addRules_eq_ok_iff.mpr ⟨hall, rfl⟩] at hadd
    cases hadd
  | ok next =>
    obtain ⟨hall, hnext⟩ := Grammar.addRules_eq_ok_iff.mp hadd
    obtain rfl : next = w.queued doc := hnext
    dsimp only
    generalize (w.queued doc).commit = result
    obtain ⟨f, e | changed⟩ := result
    · simp
    · simp only [Except.ok.injEq, exists_eq', and_true]
      exact ⟨fun heq => ⟨hall, heq.symm⟩, fun ⟨_, heq⟩ => heq.symm⟩

/-- How a text is loaded. -/
theorem load_eq_ok_iff {source : String} :
    w.load source = .ok (h, w') ↔
      ∃ doc g, Jsgf.Document.parse source = .ok doc ∧ w.handle? doc.name = none ∧ w.grammarOf doc = .ok g ∧
        w.register g = .ok (h, w') := by
  unfold load
  constructor
  · intro hload
    split at hload
    · cases hload
    · rename_i doc hdoc
      split at hload
      · cases hload
      · rename_i hfree
        split at hload
        · cases hload
        · rename_i g hg
          cases hr : w.register g with
          | error e => rw [hr] at hload; cases hload
          | ok result =>
            rw [hr] at hload
            cases hload
            exact ⟨doc, g, hdoc, by simpa using hfree, hg, hr⟩
  · rintro ⟨doc, g, hdoc, hfree, hg, hr⟩
    simp only [hdoc, hfree, hg, hr, Option.isSome_none, Bool.false_eq_true, ↓reduceIte]
    rfl

/-- The grammar of a document is sound. -/
theorem sound_of_grammarOf {doc : Jsgf.Document} (hg : w.grammarOf doc = .ok g) : g.Sound := by
  obtain ⟨hall, rfl, -⟩ := grammarOf_eq_ok_iff.mp hg
  have hqueued : (w.queued doc).Sound := by
    refine ⟨fun c hc rule hr => ?_, nofun⟩
    obtain ⟨rule', hrule', rfl⟩ := List.mem_map.mp hc
    cases hr
    exact hall rule hrule'
  exact hqueued.perform .commit

/-! ## Every workspace -/

theorem restore_eq_ok_iff {bytes : List UInt8} :
    w.restore bytes = .ok (h, w') ↔
      ∃ s, Cache.decode bytes = .ok s ∧ w.register (w.linkedGrammar s) = .ok (h, w') := by
  unfold restore
  cases hs : Cache.decode bytes with
  | error e => simp
  | ok s => cases hr : w.register (w.linkedGrammar s) <;> simp [Except.mapError, hr]

theorem delete_eq_ok {old : String} (hd : w.delete old = .ok (h, w')) :
    w' = { w with registered := w.registered.filter (·.1 != old) } := by
  unfold delete at hd
  split at hd
  · cases hd
  · cases hd
    rfl

/-- A grammar that is created may have a change of the root in its queue. -/
theorem sound_created {root : Option String} (hg : g.Sound) :
    (if root.isSome then g.enqueue (.setRoot root) else g).Sound := by
  split
  · exact hg.perform (.setRoot root)
  · exact hg

theorem Sound.create (hw : w.Sound) {root locale : Option String} (hc : w.create name root locale = .ok (h, w')) :
    w'.Sound := hw.register (sound_created (Grammar.sound_empty _ _ _ true)) hc

theorem Sound.load (hw : w.Sound) {source : String} (hl : w.load source = .ok (h, w')) : w'.Sound := by
  obtain ⟨_, _, -, -, hg, hr⟩ := load_eq_ok_iff.mp hl
  exact hw.register (sound_of_grammarOf hg) hr

theorem Sound.restore (hw : w.Sound) {bytes : List UInt8} (hres : w.restore bytes = .ok (h, w')) : w'.Sound := by
  obtain ⟨_, hs, hr⟩ := restore_eq_ok_iff.mp hres
  exact hw.register (Grammar.sound_of_decode hs _ true) hr

theorem Sound.delete (hw : w.Sound) (hd : w.delete name = .ok (h, w')) : w'.Sound := by
  rw [delete_eq_ok hd]
  exact hw.restrict _

/-- **Every workspace that there can be is sound.** -/
theorem Reachable.sound (hw : w.Reachable) : w.Sound := by
  induction hw with
  | empty => exact sound_empty _
  | create _ hcreate ih => exact ih.create hcreate
  | load _ hload ih => exact ih.load hload
  | restore _ hrestore ih => exact ih.restore hrestore
  | delete _ hdelete ih => exact ih.delete hdelete
  | clear _ ih => exact ⟨ih.grammars, nofun, List.nodup_nil⟩
  | keepEmpty _ ih => exact ih.keep (Grammar.sound_empty _ _ _ false)
  | keepDecoded _ hg ih =>
    obtain ⟨s, hs, rfl⟩ := Grammar.decode_eq_ok hg
    exact ih.keep (Grammar.sound_of_decode hs _ false)
  | perform h o _ ih => exact ih.modify h o

end Workspace

end SpeechGrammar
