import SpeechGrammar.Proofs.StoreInvariant

/-!
# Runs of a grammar

A run performs operations on a grammar one after the other: it queues changes, and it commits what is queued. Whatever
the order of the operations, and whichever of the changes fail, all states that are published are valid, ids are never
given twice and the next id never goes down (**`Grammar.published_valid`**).
-/

namespace SpeechGrammar

/-- What can be done to a grammar. -/
inductive Operation where
  | addRule (rule : Rule)
  | removeRule (name : String)
  | setRoot (name : Option String)
  | setActivatable (names : List String) (enabled : Bool)
  | commit

namespace Grammar

/-- The grammar after an operation. A rule with a fault is not queued. -/
def perform (g : Grammar) : Operation → Grammar
  | .addRule rule =>
    match g.addRule rule with
    | .ok next => next
    | .error _ => g
  | .removeRule name => g.enqueue (.remove name)
  | .setRoot name => g.enqueue (.setRoot name)
  | .setActivatable names enabled => g.enqueue (.setActivatable names enabled)
  | .commit => g.commit.1

/-- The grammar after several operations. -/
def run (g : Grammar) : List Operation → Grammar
  | [] => g
  | o :: os => (g.perform o).run os

/-- The states that are published before and after each of the operations. -/
def published (g : Grammar) : List Operation → List Snapshot
  | [] => [g.committed]
  | o :: os => g.committed :: (g.perform o).published os

/-- The entries that an operation adds to the committed state. -/
def given (g : Grammar) : Operation → List Entry
  | .commit => g.committed.additions (Snapshot.commitOrder g.pending)
  | _ => []

/-- The entries that are added to the committed state, in order, with those that are removed later. -/
def additions (g : Grammar) : List Operation → List Entry
  | [] => []
  | o :: os => g.given o ++ (g.perform o).additions os

/-- Every queued rule has been checked. -/
def Checked (g : Grammar) : Prop := ∀ c ∈ g.pending, c.Checked

section

variable {g : Grammar} {s t : Snapshot} {log : List Entry} {options : SearchOptions} {linked : Bool}

/-! ## One operation -/

/-- A rule is queued if it has no fault, and otherwise nothing happens. -/
theorem perform_addRule (g : Grammar) (rule : Rule) :
    (ruleFault? rule = none ∧ g.perform (.addRule rule) = g.enqueue (.add rule)) ∨ g.perform (.addRule rule) = g := by
  simp only [perform, addRule]
  cases ruleFault? rule with
  | none => exact .inl ⟨rfl, rfl⟩
  | some fault => exact .inr rfl

theorem checked_ofSnapshot : (ofSnapshot s options linked).Checked := nofun

theorem Checked.enqueue (h : g.Checked) {c : Change} (hc : c.Checked) : (g.enqueue c).Checked :=
  List.forall_mem_append.mpr ⟨h, List.forall_mem_singleton.mpr hc⟩

/-- Only rules that have been checked come into the queue. -/
theorem Checked.perform (h : g.Checked) (o : Operation) : (g.perform o).Checked := by
  cases o with
  | addRule rule =>
    rcases perform_addRule g rule with ⟨hf, heq⟩ | heq <;> rw [heq]
    · refine h.enqueue fun r hr => ?_
      cases hr
      exact hf
    · exact h
  | removeRule name => exact h.enqueue nofun
  | setRoot name => exact h.enqueue nofun
  | setActivatable names enabled => exact h.enqueue nofun
  | commit => exact nofun

/-- The changes of a commit are the queued ones. -/
theorem mem_commitOrder {c : Change} {cs : List Change} : c ∈ Snapshot.commitOrder cs ↔ c ∈ cs := by
  rw [Snapshot.commitOrder, List.mem_append, List.mem_filter, List.mem_filter, ← and_or_left]
  cases c.isSetRoot <;> simp

theorem Checked.given (h : g.Checked) (o : Operation) : ∀ e ∈ g.given o, ruleFault? e.rule = none := by
  cases o with
  | commit => exact Snapshot.additions_checked fun c hc => h c (mem_commitOrder.mp hc)
  | _ => exact nofun

/-- Only a commit changes the committed state. -/
theorem perform_committed {o : Operation} (ho : o ≠ .commit) :
    (g.perform o).committed = g.committed ∧ g.given o = [] := by
  cases o with
  | addRule rule => rcases perform_addRule g rule with ⟨-, heq⟩ | heq <;> rw [heq] <;> exact ⟨rfl, rfl⟩
  | commit => exact absurd rfl ho
  | _ => exact ⟨rfl, rfl⟩

/-- **One operation keeps the invariant.** -/
theorem logged_perform (h : g.committed.Logged log) (o : Operation)
    (room : g.committed.nextId.toNat + (g.given o).length < 2 ^ 64) :
    (g.perform o).committed.Logged (log ++ g.given o) ∧
      (g.perform o).committed.nextId.toNat = g.committed.nextId.toNat + (g.given o).length := by
  by_cases ho : o = .commit
  · subst ho
    exact h.publish room
  · obtain ⟨hsame, hnone⟩ := perform_committed (g := g) ho
    rw [hsame, hnone, List.append_nil]
    exact ⟨h, rfl⟩

/-! ## Whole runs -/

/-- **A run keeps the invariant.** -/
theorem logged_run {os : List Operation} (h : g.committed.Logged log)
    (room : g.committed.nextId.toNat + (g.additions os).length < 2 ^ 64) :
    (g.run os).committed.Logged (log ++ g.additions os) := by
  induction os generalizing g log with
  | nil => simpa [Grammar.run, additions] using h
  | cons o os ih =>
    simp only [additions, List.length_append] at room
    obtain ⟨hstep, hid⟩ := logged_perform h o (by omega)
    rw [additions, ← List.append_assoc]
    exact ih hstep (by omega)

theorem Checked.additions {os : List Operation} (h : g.Checked) :
    ∀ e ∈ g.additions os, ruleFault? e.rule = none := by
  induction os generalizing g with
  | nil => exact nofun
  | cons o os ih => exact List.forall_mem_append.mpr ⟨h.given o, ih (h.perform o)⟩

/-- Each state that is published is that of a run of the first operations. -/
theorem exists_run_of_mem_published {os : List Operation} (ht : t ∈ g.published os) :
    ∃ earlier later, os = earlier ++ later ∧ t = (g.run earlier).committed := by
  induction os generalizing g with
  | nil => exact ⟨[], [], rfl, List.mem_singleton.mp ht⟩
  | cons o os ih =>
    rcases List.mem_cons.mp ht with rfl | ht
    · exact ⟨[], o :: os, rfl, rfl⟩
    · obtain ⟨earlier, later, rfl, rfl⟩ := ih ht
      exact ⟨o :: earlier, later, rfl, rfl⟩

theorem additions_append (earlier later : List Operation) :
    g.additions (earlier ++ later) = g.additions earlier ++ (g.run earlier).additions later := by
  induction earlier generalizing g with
  | nil => rfl
  | cons o os ih => rw [List.cons_append, additions, additions, ih, List.append_assoc, run]

/-- The next id never goes down. -/
theorem nextId_le_published {os : List Operation} (h : g.committed.Logged log)
    (room : g.committed.nextId.toNat + (g.additions os).length < 2 ^ 64) :
    (∀ t ∈ g.published os, g.committed.nextId ≤ t.nextId) ∧
      (g.published os).Pairwise fun s t => s.nextId ≤ t.nextId := by
  induction os generalizing g log with
  | nil => simp [published]
  | cons o os ih =>
    simp only [additions, List.length_append] at room
    obtain ⟨hstep, hid⟩ := logged_perform h o (by omega)
    obtain ⟨hall, hpairs⟩ := ih hstep (by omega)
    have hlater : ∀ t ∈ (g.perform o).published os, g.committed.nextId ≤ t.nextId := by
      intro t ht
      have hle := UInt64.le_iff_toNat_le.mp (hall t ht)
      rw [UInt64.le_iff_toNat_le]
      omega
    rw [published, List.forall_mem_cons, List.pairwise_cons]
    exact ⟨⟨UInt64.le_refl _, hlater⟩, hlater, hpairs⟩

/-! ## The published states -/

/-- **Every state that a run publishes is valid**, from an empty grammar as well as from a valid state, and as long as
the ids last. Entries are found under the names of their rules, and the root is an existing public rule. The next id
never goes down, every entry comes from the first state or from one of the additions, and all of these have ids of
their own. -/
theorem published_valid {os : List Operation} (start : (∃ name locale, s = .empty name locale) ∨ s.Valid)
    (room : s.nextId.toNat + ((ofSnapshot s options linked).additions os).length < 2 ^ 64) :
    (∀ t ∈ (ofSnapshot s options linked).published os,
      t.Valid ∧ (∀ e ∈ t.entries, t.find? e.name = some e) ∧ (∀ name, t.root = some name → t.HasPublic name) ∧
        ∀ e ∈ t.entries, ∃ f ∈ s.entries ++ (ofSnapshot s options linked).additions os,
          f.rule = e.rule ∧ f.id = e.id) ∧
      ((ofSnapshot s options linked).published os).Pairwise (fun t u => t.nextId ≤ u.nextId) ∧
      ((s.entries ++ (ofSnapshot s options linked).additions os).map Entry.id).Nodup := by
  have hvalid : s.Valid := by
    rcases start with ⟨name, locale, rfl⟩ | h
    · exact ⟨Snapshot.empty_consistent name locale, nofun⟩
    · exact h
  have hstart : (ofSnapshot s options linked).committed.Logged s.entries := hvalid.toConsistent.logged
  refine ⟨fun t ht => ?_, (nextId_le_published hstart room).2, (logged_run hstart room).ids⟩
  obtain ⟨earlier, later, rfl, rfl⟩ := exists_run_of_mem_published ht
  rw [additions_append, List.length_append] at room
  have hroom : (ofSnapshot s options linked).committed.nextId.toNat +
      ((ofSnapshot s options linked).additions earlier).length < 2 ^ 64 := by
    show s.nextId.toNat + _ < _
    omega
  have hnow := logged_run hstart hroom
  have hrules := hnow.forall_rule (P := fun rule => ruleFault? rule = none)
    (List.forall_mem_append.mpr ⟨hvalid.rules, checked_ofSnapshot.additions⟩)
  refine ⟨⟨hnow.consistent, hrules⟩, fun e he => hnow.consistent.find?_name he,
    fun name hr => hnow.consistent.hasPublic_root hr, fun e he => ?_⟩
  obtain ⟨f, hf, hsame⟩ := hnow.covered e he
  rw [additions_append, ← List.append_assoc]
  exact ⟨f, List.mem_append_left _ hf, hsame⟩

end

/-! ## A run -/

/-- A grammar without rules. -/
def switch : Grammar := ofSnapshot (.empty "switch" none) default false

/-- In the second commit the root is replaced by a private rule of its name, and two of the changes fail. -/
def switchRun : List Operation :=
  [.addRule ⟨"on", true, .token "turn on"⟩, .setRoot (some "on"), .addRule ⟨"off", false, .token "turn off"⟩, .commit,
   .setRoot (some "on"), .removeRule "on", .addRule ⟨"on", false, .token "turn on"⟩, .removeRule "dim", .commit]

theorem switchRun_published_valid :
    (switch.additions switchRun).map Entry.id = [0, 1, 2] ∧
      ∀ t ∈ switch.published switchRun, t.Valid ∧ ∀ name, t.root = some name → t.HasPublic name := by
  have hids : (switch.additions switchRun).map Entry.id = [0, 1, 2] := by decide +kernel
  have hlength : (switch.additions switchRun).length = 3 := by
    rw [← List.length_map Entry.id, hids]
    rfl
  have room : (Snapshot.empty "switch" none).nextId.toNat + (switch.additions switchRun).length < 2 ^ 64 := by
    rw [hlength]
    decide
  have hall := (@published_valid (.empty "switch" none) default false switchRun (.inl ⟨"switch", none, rfl⟩) room).1
  exact ⟨hids, fun t ht => ⟨(hall t ht).1, (hall t ht).2.2.1⟩⟩

end Grammar

end SpeechGrammar
