import SpeechGrammar.Proofs.Generations
import SpeechGrammar.Proofs.Tables

/-!
# Grammars that keep tables

A change is made in a table in place: each step sees what those before it have written, and nothing is taken back when
a later step fails. Still it does what the change of the state does that the table stands for. It says the same and leads
to a table of the same state (**`Table.Keeps.inStep`**), and if it fails, the table stands for the state that it stood
for before (**`Table.Keeps.of_failed`**). So do several changes, whichever of them fail (**`Table.Keeps.applyAll`**), and
commits (**`Store.Keeps.commit`**). Grammars that keep tables cannot be told from those that keep states, as long as the
ids last (**`Store.run_keeps`**).
-/

namespace SpeechGrammar

namespace Table

section

variable {α β : Type} {m : Edit α} {next : α → Edit β} {a : α} {t t' : Table} {s : Snapshot} {e : Entry}
  {es : List Entry} {name : String} {names : List String} {enabled changed : Bool} {fault : GrammarError}

/-! ## What single steps do -/

theorem run_bind_of_ok (h : m.run.run t = (.ok a, t')) : (m >>= next).run.run t = (next a).run.run t' := by
  rw [ExceptT.run_bind, StateT.run_bind, h]
  rfl

theorem run_bind_of_error (h : m.run.run t = (.error fault, t')) : (m >>= next).run.run t = (.error fault, t') := by
  rw [ExceptT.run_bind, StateT.run_bind, h]
  rfl

theorem run_get_bind (next : Table → Edit β) : (get >>= next).run.run t = (next t).run.run t := rfl

theorem run_modify_bind (f : Table → Table) (next : Unit → Edit β) :
    (modify f >>= next).run.run t = (next ()).run.run (f t) := rfl

theorem Keeps.run_requirePublic (h : t.Keeps s) (use : PublicUse) (name : String) :
    (requirePublic use name).run.run t = (s.requirePublic use name, t) := by
  rw [requirePublic, run_get_bind, h.rules, Snapshot.requirePublic]
  cases s.find? name with
  | none => rfl
  | some e =>
    dsimp only
    cases e.rule.isPublic <;> rfl

theorem Keeps.run_requireAllPublic (h : t.Keeps s) (use : PublicUse) (names : List String) :
    (requireAllPublic use names).run.run t = (s.requireAllPublic use names, t) := by
  induction names with
  | nil => rfl
  | cons name names ih =>
    have hfirst := h.run_requirePublic use name
    rw [requireAllPublic, Snapshot.requireAllPublic]
    cases hrequire : s.requirePublic use name with
    | error fault => exact run_bind_of_error (hrequire ▸ hfirst)
    | ok _ => rw [run_bind_of_ok (hrequire ▸ hfirst), ih]

/-- What activation writes under each name. -/
def Activated (t t' : Table) (names : List String) (enabled : Bool) : Prop :=
  t' = { t with rules := t'.rules } ∧ ∀ name, t'.rules[name]? =
    if name ∈ names then t.rules[name]?.map fun e => { e with activatable := enabled } else t.rules[name]?

/-- Something under the name is not as it is to be. -/
def differs (t : Table) (enabled : Bool) (name : String) : Bool := t.rules[name]?.any (·.activatable != enabled)

/-- After a rule has been written, it is as it is to be, and the others differ as before. -/
theorem differs_insert (t : Table) (enabled : Bool) (first : String) (e : Entry) (name : String) :
    ({ t with rules := t.rules.insert first { e with activatable := enabled } } : Table).differs enabled name =
      (first != name && t.differs enabled name) := by
  rw [differs, Std.HashMap.getElem?_insert]
  by_cases hname : first = name
  · simp [hname]
  · simp [hname, differs]

/-- Activation writes what it is to write, and tells whether a rule was not as it is to be. -/
theorem run_activate (t : Table) (enabled changed : Bool) (names : List String) :
    ∃ t', (activate enabled changed names).run.run t = (.ok (changed || names.any (t.differs enabled)), t') ∧
      t.Activated t' names enabled := by
  induction names generalizing t changed with
  | nil => exact ⟨t, by rw [List.any_nil, Bool.or_false]; rfl, rfl, fun name => by simp⟩
  | cons first names ih =>
    rw [activate, run_get_bind]
    cases hfirst : t.rules[first]? with
    | none =>
      obtain ⟨t', hrun, hrest, hrules⟩ := ih t changed
      have hsame : t.differs enabled first = false := by rw [differs, hfirst]; rfl
      refine ⟨t', ?_, hrest, fun name => ?_⟩
      · rw [List.any_cons, hsame, Bool.false_or]
        exact hrun
      · rw [hrules]
        grind
    | some e =>
      dsimp only
      rw [run_modify_bind]
      obtain ⟨t', hrun, hrest, hrules⟩ := ih { t with rules := t.rules.insert first { e with activatable := enabled } }
        (changed || e.activatable != enabled)
      refine ⟨t', ?_, ?_, fun name => ?_⟩
      · have hsame : t.differs enabled first = (e.activatable != enabled) := by rw [differs, hfirst]; rfl
        rw [hrun, List.any_cons, hsame, Bool.or_assoc, funext (differs_insert t enabled first e)]
        cases hdiffers : e.activatable != enabled with
        | true => simp
        | false =>
          -- the first rule is as it is to be, so that it is not seen either way
          have hnot : ∀ name, (first != name && t.differs enabled name) = t.differs enabled name := fun name => by
            by_cases hname : first = name
            · rw [← hname, hsame, hdiffers, Bool.and_false]
            · rw [bne_iff_ne.mpr hname, Bool.true_and]
          simp only [hnot]
      · exact hrest
      · rw [hrules, Std.HashMap.getElem?_insert]
        grind

/-! ## What is written stands for the changed state -/

/-- What is found in a state after the entry of another name has been put in its place. -/
theorem find?_place (hname : e.name ∉ es.map Entry.name) (name : String) :
    (Snapshot.place e es).find? (·.name == name) = if e.name = name then some e else es.find? (·.name == name) := by
  induction es with
  | nil => by_cases h : e.name = name <;> simp [Snapshot.place, h]
  | cons f fs ih =>
    rw [List.map_cons, List.mem_cons, not_or] at hname
    rw [Snapshot.place]
    split
    · by_cases h : e.name = name <;> simp [List.find?_cons, h]
    · rw [List.find?_cons, List.find?_cons, ih hname.2]
      grind

theorem Keeps.insert (h : t.Keeps s) {rule : Rule} (hname : rule.name ∉ s.entries.map Entry.name) :
    Keeps { t with nextId := t.nextId + 1, rules := t.rules.insert rule.name ⟨rule, t.nextId, rule.isPublic⟩ }
      (s.insert rule) where
  name := h.name
  locale := h.locale
  rules name := by
    rw [Std.HashMap.getElem?_insert, Snapshot.find?, Snapshot.insert, find?_place hname, h.rules, h.nextId]
    simp only [Snapshot.find?, beq_iff_eq]
    rfl
  explicitRoot := h.explicitRoot
  nextId := by rw [h.nextId]; rfl
  generation := h.generation

theorem Keeps.erase (h : t.Keeps s) (name : String) :
    Keeps { t with rules := t.rules.erase name, explicitRoot := s.explicitRoot.filter (· != name) } (s.erase name) where
  name := h.name
  locale := h.locale
  rules other := by
    rw [Std.HashMap.getElem?_erase, h.rules, Snapshot.find?, Snapshot.find?, Snapshot.erase, List.find?_filter]
    by_cases hname : name = other
    · rw [if_pos (beq_iff_eq.mpr hname), eq_comm, List.find?_eq_none]
      grind
    · rw [if_neg (mt beq_iff_eq.mp hname)]
      congr 1
      grind
  explicitRoot := rfl
  nextId := h.nextId
  generation := h.generation

/-- Erasing a name that leads to nothing leaves what is found. -/
theorem Keeps.erase_missing (h : t.Keeps s) (hname : s.find? name = none) :
    Keeps { t with rules := t.rules.erase name } s := by
  refine ⟨h.name, h.locale, fun other => ?_, h.explicitRoot, h.nextId, h.generation⟩
  rw [Std.HashMap.getElem?_erase, h.rules]
  by_cases hother : name = other
  · rw [if_pos (beq_iff_eq.mpr hother), ← hother, hname]
  · rw [if_neg (mt beq_iff_eq.mp hother)]

theorem Keeps.activate (h : t.Keeps s) (hwritten : t.Activated t' names enabled) :
    t'.Keeps (s.activate names enabled) := by
  obtain ⟨hrest, hrules⟩ := hwritten
  rw [hrest]
  refine ⟨h.name, h.locale, fun name => ?_, h.explicitRoot, h.nextId, h.generation⟩
  have hname : ∀ e : Entry, (if names.contains e.name then { e with activatable := enabled } else e).name = e.name :=
    fun e => by split <;> rfl
  rw [hrules, h.rules, Snapshot.find?, Snapshot.find?, Snapshot.activate, List.find?_map]
  simp only [Function.comp_def, hname]
  cases hfind : s.entries.find? (·.name == name) with
  | none => simp
  | some e =>
    obtain ⟨-, rfl⟩ := Snapshot.mem_of_find? hfind
    simp only [Option.map_some, List.contains_iff_mem]
    split <;> rfl

theorem Keeps.withRoot (h : t.Keeps s) (root : Option String) :
    Keeps { t with explicitRoot := root } { s with explicitRoot := root } :=
  ⟨h.name, h.locale, h.rules, rfl, h.nextId, h.generation⟩

/-- Activation makes a difference if one of the names leads to an entry that is not as it is to be. -/
theorem Keeps.any_differs (h : t.Keeps s) (hs : s.Consistent) :
    names.any (t.differs enabled) = s.activationDiffers names enabled := by
  rw [Bool.eq_iff_iff, List.any_eq_true, Snapshot.activationDiffers, List.any_eq_true]
  simp only [differs, h.rules, Option.any_eq_true, Bool.and_eq_true, List.contains_iff_mem]
  constructor
  · rintro ⟨name, hname, e, hfind, hdiffers⟩
    obtain ⟨he, rfl⟩ := Snapshot.mem_of_find? hfind
    exact ⟨e, he, hname, hdiffers⟩
  · rintro ⟨e, he, hname, hdiffers⟩
    exact ⟨e.name, hname, e, hs.find?_name he, hdiffers⟩

/-! ## One change -/

/-- The change says the same of the table as of the state, and leads to the same. -/
def InStep (t : Table) (s : Snapshot) (c : Change) : Prop :=
  ∃ t', (apply c).run.run t = (s.verdict c, t') ∧ t'.Keeps (s.after c)

theorem inStep_of_error {c : Change} (hs : s.apply c = .error fault)
    (ht : (apply c).run.run t = (.error fault, t')) (hkeeps : t'.Keeps s) : t.InStep s c := by
  refine ⟨t', ?_, ?_⟩
  · rw [ht, Snapshot.verdict, hs]; rfl
  · rw [Snapshot.after, hs]; exact hkeeps

theorem inStep_of_ok {c : Change} {s' : Snapshot} (hs : s.apply c = .ok (s', changed))
    (ht : (apply c).run.run t = (.ok changed, t')) (hkeeps : t'.Keeps s') : t.InStep s c := by
  refine ⟨t', ?_, ?_⟩
  · rw [ht, Snapshot.verdict, hs]; rfl
  · rw [Snapshot.after, hs]; exact hkeeps

theorem Keeps.inStep_add (h : t.Keeps s) (rule : Rule) : t.InStep s (.add rule) := by
  have hthere : t.rules.contains rule.name = (s.find? rule.name).isSome := by
    rw [Std.HashMap.contains_eq_isSome_getElem?, h.rules]
  by_cases hfind : (s.find? rule.name).isSome = true
  · refine inStep_of_error (if_pos hfind) ?_ h
    rw [apply, run_get_bind, if_pos (hthere.trans hfind)]
    rfl
  · refine inStep_of_ok (if_neg hfind) ?_ (h.insert ?_)
    · rw [apply, run_get_bind, if_neg (hthere ▸ hfind)]
      rfl
    · rwa [Bool.not_eq_true, Option.isSome_eq_false_iff, Option.isNone_iff_eq_none, Snapshot.find?_eq_none_iff] at hfind

theorem Keeps.inStep_remove (h : t.Keeps s) (name : String) : t.InStep s (.remove name) := by
  by_cases hfind : (s.find? name).isSome = true
  · refine inStep_of_ok (if_pos hfind) ?_ (h.erase name)
    have hthere : t.rules[name]?.isNone = false := by rw [h.rules, ← Option.not_isSome, hfind]; rfl
    rw [apply, run_get_bind, run_modify_bind, hthere, if_neg Bool.false_ne_true, ← h.explicitRoot]
    dsimp only
    rw [run_get_bind]
    by_cases hroot : t.explicitRoot = some name
    · have hgone : t.explicitRoot.filter (· != name) = none := by simp [hroot]
      rw [if_pos hroot, hgone]
      rfl
    · have hkept : t.explicitRoot.filter (· != name) = t.explicitRoot := by
        cases hset : t.explicitRoot with
        | none => rfl
        | some root =>
          refine if_pos (bne_iff_ne.mpr fun heq => hroot ?_)
          rw [hset, heq]
      rw [if_neg hroot, hkept]
      rfl
  · have hnone : s.find? name = none := by
      rwa [Bool.not_eq_true, Option.isSome_eq_false_iff, Option.isNone_iff_eq_none] at hfind
    refine inStep_of_error (if_neg hfind) ?_ (h.erase_missing hnone)
    have hmissing : t.rules[name]?.isNone = true := by rw [h.rules, hnone]; rfl
    rw [apply, run_get_bind, run_modify_bind, hmissing]
    rfl

theorem Keeps.inStep_setActivatable (h : t.Keeps s) (hs : s.Consistent) (names : List String) (enabled : Bool) :
    t.InStep s (.setActivatable names enabled) := by
  have hcheck := h.run_requireAllPublic .activation names
  cases hrequire : s.requireAllPublic .activation names with
  | error fault =>
    rw [hrequire] at hcheck
    refine inStep_of_error ?_ (run_bind_of_error hcheck) h
    rw [Snapshot.apply, hrequire]
  | ok _ =>
    rw [hrequire] at hcheck
    obtain ⟨t', hrun, hwritten⟩ := run_activate t enabled false names
    rw [Bool.false_or, h.any_differs hs] at hrun
    refine inStep_of_ok ?_ ((run_bind_of_ok hcheck).trans hrun) (h.activate hwritten)
    rw [Snapshot.apply, hrequire]

theorem Keeps.inStep_setRoot (h : t.Keeps s) (root : Option String) : t.InStep s (.setRoot root) := by
  cases root with
  | none =>
    refine inStep_of_ok rfl ?_ (h.withRoot none)
    rw [← h.explicitRoot]
    rfl
  | some name =>
    have hcheck := h.run_requirePublic .root name
    cases hrequire : s.requirePublic .root name with
    | error fault =>
      rw [hrequire] at hcheck
      refine inStep_of_error ?_ (run_bind_of_error hcheck) h
      rw [Snapshot.apply, hrequire]
    | ok _ =>
      rw [hrequire] at hcheck
      have happly : s.apply (.setRoot (some name)) =
          .ok ({ s with explicitRoot := some name }, s.explicitRoot != some name) := by
        rw [Snapshot.apply, hrequire]
      rw [← h.explicitRoot] at happly
      exact inStep_of_ok happly (run_bind_of_ok hcheck) (h.withRoot (some name))

/-- **A change says the same of a table as of the state that it stands for**, and leads to the same state. -/
theorem Keeps.inStep (h : t.Keeps s) (hs : s.Consistent) : ∀ c, t.InStep s c
  | .add rule => h.inStep_add rule
  | .remove name => h.inStep_remove name
  | .setRoot root => h.inStep_setRoot root
  | .setActivatable names enabled => h.inStep_setActivatable hs names enabled

/-- **A change that fails leaves a table of the same state**, whatever it has written before it failed. -/
theorem Keeps.of_failed (h : t.Keeps s) (hs : s.Consistent) {c : Change}
    (hfailed : (apply c).run.run t = (.error fault, t')) : t'.Keeps s := by
  obtain ⟨left, hrun, hleft⟩ := h.inStep hs c
  rw [hfailed, Prod.mk.injEq] at hrun
  obtain ⟨hverdict, rfl⟩ := hrun
  rcases s.verdict_cases c with ⟨_, -, hsame⟩ | ⟨hok, -⟩ | ⟨hok, -⟩
  · exact hsame ▸ hleft
  · rw [← hverdict] at hok
    cases hok
  · rw [← hverdict] at hok
    cases hok

/-! ## Several changes -/

/-- The tally with what several changes have come to. -/
def Tally.after (tally : Tally) (o : Snapshot.Outcome) : Tally :=
  ⟨tally.changed || o.changed, tally.applied + o.applied, tally.failures ++ o.failures⟩

theorem generation_applyAll (s : Snapshot) (cs : List Change) :
    (s.applyAll cs).snapshot.generation = s.generation := by
  induction cs generalizing s with
  | nil => rfl
  | cons c cs ih =>
    rw [Snapshot.applyAll]
    cases happly : s.apply c with
    | error fault => exact ih s
    | ok result =>
      obtain ⟨t, changed⟩ := result
      refine (ih t).trans ?_
      obtain ⟨rule, -, -, rfl, -⟩ | ⟨name, -, rfl⟩ | ⟨names, enabled, -, -, rfl⟩ | ⟨-, rfl⟩ | ⟨name, -, -, rfl⟩ :=
        Snapshot.apply_cases happly <;> rfl

/-- The next generation of a table stands for that of the state. -/
theorem Keeps.renew (h : t.Keeps s) :
    Keeps { t with generation := t.generation + 1 } { s with generation := s.generation + 1 } :=
  ⟨h.name, h.locale, h.rules, h.explicitRoot, h.nextId, congrArg (· + 1) h.generation⟩

theorem Tally.after_start (o : Snapshot.Outcome) :
    Tally.after ⟨false, 0, []⟩ o = ⟨o.changed, o.applied, o.failures⟩ := by
  simp [Tally.after]

/-- **Several changes come to the same**, whichever of them fail, as long as the ids last. -/
theorem Keeps.applyAll {cs : List Change} {log : List Entry} (h : t.Keeps s) (hs : s.Logged log) (tally : Tally)
    (room : s.nextId.toNat + (s.additions cs).length < 2 ^ 64) :
    (t.applyAll tally cs).1.Keeps (s.applyAll cs).snapshot ∧ (t.applyAll tally cs).2 = tally.after (s.applyAll cs) := by
  induction cs generalizing t s log tally with
  | nil => exact ⟨h, by simp [Table.applyAll, Snapshot.applyAll, Tally.after]⟩
  | cons c cs ih =>
    obtain ⟨t', hrun, ht'⟩ := h.inStep hs.consistent c
    rw [Table.applyAll, hrun]
    cases happly : s.apply c with
    | error fault =>
      simp only [Snapshot.verdict, Snapshot.after, Snapshot.applyAll, Snapshot.additions, happly] at ht' room ⊢
      obtain ⟨hkeeps, htally⟩ := ih ht' hs _ room
      exact ⟨hkeeps, htally.trans (by simp [Tally.after])⟩
    | ok result =>
      obtain ⟨s', changed⟩ := result
      simp only [Snapshot.verdict, Snapshot.after, Snapshot.applyAll, Snapshot.additions, happly,
        List.length_append] at ht' room ⊢
      obtain ⟨hs', hid⟩ := hs.apply (by omega) happly
      obtain ⟨hkeeps, htally⟩ := ih ht' hs' _ (by omega)
      refine ⟨hkeeps, htally.trans ?_⟩
      simp [Tally.after, Bool.or_assoc, Nat.add_assoc, Nat.add_comm]

end

end Table

/-! ## Grammars that keep tables -/

/-- A grammar that keeps its committed state as a table. -/
structure Store where
  committed : Table
  pending : List Change

namespace Store

/-- Makes the queued changes on a copy, and publishes it if something is different. -/
def commit (store : Store) : Store × Except CommitError Bool :=
  if store.pending.isEmpty then (store, .ok false)
  else
    let (roots, others) := store.pending.partition Change.isSetRoot
    let (working, tally) := store.committed.applyAll ⟨false, 0, []⟩ (others ++ roots)
    let published :=
      if tally.changed then { working with generation := working.generation + 1 } else store.committed
    (⟨published, []⟩, if tally.failures.isEmpty then .ok tally.changed else .error ⟨tally.failures, tally.applied⟩)

/-- The store after an operation. -/
def perform (store : Store) : Operation → Store
  | .commit => store.commit.1
  | o => { store with pending := store.pending ++ (Ledger.change? o).toList }

/-- The store after several operations. -/
def run (store : Store) : List Operation → Store
  | [] => store
  | o :: os => (store.perform o).run os

/-- What the commits of a run report. -/
def reports (store : Store) : List Operation → List (Except CommitError Bool)
  | [] => []
  | .commit :: os => store.commit.2 :: (store.perform .commit).reports os
  | o :: os => (store.perform o).reports os

/-- The store has the committed state of a grammar as a table, and the same queue. -/
structure Keeps (store : Store) (g : Grammar) : Prop where
  committed : store.committed.Keeps g.committed
  pending : store.pending = g.pending

section

variable {store : Store} {g : Grammar} {log : List Entry}

/-- **A commit of a store is a commit of the grammar**, with the same report. -/
theorem Keeps.commit (h : store.Keeps g) (hg : g.committed.Logged log)
    (room : g.committed.nextId.toNat + (g.given .commit).length < 2 ^ 64) :
    store.commit.1.Keeps g.commit.1 ∧ store.commit.2 = g.commit.2 := by
  unfold Store.commit
  split
  · rename_i hempty
    rw [h.pending] at hempty
    have hnone : g.pending = [] := List.isEmpty_iff.mp hempty
    rw [Grammar.commit, hnone]
    exact ⟨⟨h.committed, h.pending.trans hnone⟩, rfl⟩
  · have horder : (store.pending.partition Change.isSetRoot).2 ++ (store.pending.partition Change.isSetRoot).1 =
        Snapshot.commitOrder g.pending := by
      rw [List.partition_eq_filter_filter, h.pending]
      rfl
    obtain ⟨hkeeps, htally⟩ := h.committed.applyAll hg ⟨false, 0, []⟩ room
    have hgeneration := Table.generation_applyAll g.committed (Snapshot.commitOrder g.pending)
    simp only [horder, htally, Table.Tally.after_start]
    refine ⟨⟨?_, rfl⟩, rfl⟩
    simp only [Grammar.commit, Snapshot.publish]
    split
    · exact hgeneration ▸ hkeeps.renew
    · exact h.committed

theorem Keeps.enqueue (h : store.Keeps g) (c : Change) :
    Store.Keeps { store with pending := store.pending ++ [c] } (g.enqueue c) :=
  ⟨h.committed, congrArg (· ++ [c]) h.pending⟩

/-- **An operation on a store is the operation on the grammar.** -/
theorem Keeps.perform (h : store.Keeps g) (hg : g.committed.Logged log) (o : Operation)
    (room : g.committed.nextId.toNat + (g.given o).length < 2 ^ 64) : (store.perform o).Keeps (g.perform o) := by
  cases o with
  | commit => exact (h.commit hg room).1
  | addRule rule =>
    simp only [Store.perform, Ledger.change?, Grammar.perform, Grammar.addRule]
    cases Grammar.ruleFault? rule with
    | none => exact h.enqueue (.add rule)
    | some fault => exact ⟨h.committed, (List.append_nil _).trans h.pending⟩
  | removeRule name => exact h.enqueue (.remove name)
  | setRoot root => exact h.enqueue (.setRoot root)
  | setActivatable names enabled => exact h.enqueue (.setActivatable names enabled)

/-- **A run of a store is a run of the grammar**, with the same reports. -/
theorem Keeps.run {os : List Operation} (h : store.Keeps g) (hg : g.committed.Logged log)
    (room : g.committed.nextId.toNat + (g.additions os).length < 2 ^ 64) :
    (store.run os).Keeps (g.run os) ∧ store.reports os = g.reports os := by
  induction os generalizing store g log with
  | nil => exact ⟨h, rfl⟩
  | cons o os ih =>
    simp only [Grammar.additions, List.length_append] at room
    obtain ⟨hlogged, hid⟩ := Grammar.logged_perform hg o (by omega)
    obtain ⟨hrun, hreports⟩ := ih (h.perform hg o (by omega)) hlogged (by omega)
    refine ⟨hrun, ?_⟩
    cases o with
    | commit => exact congrArg₂ List.cons (h.commit hg (by omega)).2 hreports
    | _ => exact hreports

end

end Store

/-- **Grammars that keep tables cannot be told from those that keep states.** From the same consistent state the commits
of a run report the same, and in the end the same is found under each name, and the rules are in the same order. -/
theorem Store.run_keeps {s : Snapshot} {options : SearchOptions} {linked : Bool} {os : List Operation}
    (h : s.Consistent)
    (room : s.nextId.toNat + ((Grammar.ofSnapshot s options linked).additions os).length < 2 ^ 64) :
    Store.reports ⟨.ofSnapshot s, []⟩ os = (Grammar.ofSnapshot s options linked).reports os ∧
      (Store.run ⟨.ofSnapshot s, []⟩ os).Keeps ((Grammar.ofSnapshot s options linked).run os) ∧
      (Store.run ⟨.ofSnapshot s, []⟩ os).committed.ordered =
        ((Grammar.ofSnapshot s options linked).run os).committed.entries := by
  have hstart : Store.Keeps ⟨.ofSnapshot s, []⟩ (Grammar.ofSnapshot s options linked) :=
    ⟨Table.keeps_ofSnapshot h, rfl⟩
  obtain ⟨hrun, hreports⟩ := hstart.run h.logged room
  exact ⟨hreports, hrun, hrun.committed.ordered_eq (Grammar.logged_run h.logged room).consistent⟩

end SpeechGrammar
