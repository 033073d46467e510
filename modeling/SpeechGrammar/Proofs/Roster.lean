import SpeechGrammar.Proofs.WorkspaceRuns

/-!
# Grammars as lists

A roster is what a grammar is to those who use it: the rules in the order in which they were added, whether each of them
can be activated, and the root if one was set. There are no ids in it and no generations. Every change of a state is a
change of its roster (**`Snapshot.apply_roster`**), and so is every commit, with the same report
(**`Snapshot.commit_roster`**). So runs of a grammar cannot be told from runs of a list: all commits report the same and
all that can be read is the same, as long as the ids last (**`Grammar.run_agrees`**).
-/

namespace SpeechGrammar

/-- The rules of a grammar, and the root if one was set. -/
structure Roster where
  /-- In the order in which they were added, with whether they can be activated. -/
  rules : List (Rule × Bool)
  root : Option String

namespace Roster

variable (r : Roster)

/-! ## Reading a roster -/

/-- The entry of a rule. -/
def find? (name : String) : Option (Rule × Bool) := r.rules.find? fun (rule, _) => rule.name == name

/-- The rule of a name. -/
def rule? (name : String) : Option Rule := (r.find? name).map Prod.fst

/-- The rule is there and can be activated. -/
def isActivatable (name : String) : Bool :=
  match r.find? name with
  | some (_, active) => active
  | none => false

/-- The names of the rules in order. -/
def names : List String := r.rules.map fun (rule, _) => rule.name

/-- The names of the public rules that can be activated, in order. -/
def activeNames : List String :=
  (r.rules.filter fun (rule, active) => rule.isPublic && active).map fun (rule, _) => rule.name

/-- The root that was set, or else the first active rule. -/
def rootName : Option String :=
  match r.root with
  | some name => some name
  | none => r.activeNames.head?

/-- The root that was set comes first, if it can be activated, and then the other active rules in order. -/
def candidates : List String :=
  match r.root with
  | some name => if r.isActivatable name then name :: r.activeNames.filter (· != name) else r.activeNames
  | none => r.activeNames

/-- The grammar text of a roster. -/
def text (name : String) (locale : Option String) : String :=
  String.ofList (Snapshot.printHeader locale) ++ "grammar " ++ name ++ ";\n" ++
    String.join (r.rules.map fun (rule, _) => "\n" ++ String.ofList rule.print) ++ "\n"

/-! ## Changing a roster -/

/-- Why a rule is not open to a use. -/
def refusal? (use : PublicUse) (name : String) : Option GrammarError :=
  match r.find? name with
  | none => some (.undefinedRule name)
  | some (rule, _) => if rule.isPublic then none else some (.notPublic name use)

/-- The roster after a change. -/
def apply : Change → Except GrammarError Roster
  | .add rule =>
    if rule.name ∈ r.names then .error (.duplicateRule rule.name)
    else .ok { r with rules := r.rules ++ [(rule, rule.isPublic)] }
  | .remove name =>
    if name ∈ r.names then
      .ok ⟨r.rules.filter fun (rule, _) => rule.name != name, if r.root = some name then none else r.root⟩
    else .error (.undefinedRule name)
  | .setActivatable names enabled =>
    match names.findSome? (r.refusal? .activation) with
    | some e => .error e
    | none =>
      .ok { r with rules := r.rules.map fun (rule, active) => (rule, if rule.name ∈ names then enabled else active) }
  | .setRoot none => .ok { r with root := none }
  | .setRoot (some name) =>
    match r.refusal? .root name with
    | some e => .error e
    | none => .ok { r with root := some name }

/-- The names and the activation of the rules. -/
def marks : List (String × Bool) := r.rules.map fun (rule, active) => (rule.name, active)

/-- A change that leads from one roster to the other makes a difference. -/
def differs (t : Roster) : Bool := r.marks != t.marks || r.root != t.root

/-- The roster after several changes, and what came of each. A change that fails is left out. -/
def applyAll (r : Roster) : List Change → Roster × List (Except GrammarError Bool)
  | [] => (r, [])
  | c :: cs =>
    match r.apply c with
    | .error e => ((r.applyAll cs).1, .error e :: (r.applyAll cs).2)
    | .ok t => ((t.applyAll cs).1, .ok (r.differs t) :: (t.applyAll cs).2)

/-- The failures, in order. -/
def failures (outcomes : List (Except GrammarError Bool)) : List GrammarError :=
  outcomes.filterMap fun
    | .error e => some e
    | .ok _ => none

/-- How many changes did not fail. -/
def applied (outcomes : List (Except GrammarError Bool)) : Nat := outcomes.countP (·.isOk)

/-- Some change made a difference. -/
def changed (outcomes : List (Except GrammarError Bool)) : Bool :=
  outcomes.any fun
    | .error _ => false
    | .ok differs => differs

/-- What a commit reports. -/
def report (outcomes : List (Except GrammarError Bool)) : Except CommitError Bool :=
  match failures outcomes with
  | [] => .ok (changed outcomes)
  | e :: es => .error ⟨e :: es, applied outcomes⟩

/-- Makes the changes, those of the root after the others. -/
def commit (queue : List Change) : Roster × Except CommitError Bool :=
  let (roots, others) := queue.partition Change.isSetRoot
  let (t, outcomes) := r.applyAll (others ++ roots)
  (t, report outcomes)

end Roster

/-- A roster with changes that are not made yet. -/
structure Ledger where
  roster : Roster
  queue : List Change

namespace Ledger

/-- Without rules and changes. -/
def empty : Ledger := ⟨⟨[], none⟩, []⟩

/-- The change that an operation puts into the queue. -/
def change? : Operation → Option Change
  | .addRule rule => if (Grammar.ruleFault? rule).isNone then some (.add rule) else none
  | .removeRule name => some (.remove name)
  | .setRoot name => some (.setRoot name)
  | .setActivatable names enabled => some (.setActivatable names enabled)
  | .commit => none

/-- The ledger after an operation. -/
def perform (l : Ledger) : Operation → Ledger
  | .commit => ⟨(l.roster.commit l.queue).1, []⟩
  | o => { l with queue := l.queue ++ (change? o).toList }

/-- The ledger after several operations. -/
def run (l : Ledger) : List Operation → Ledger
  | [] => l
  | o :: os => (l.perform o).run os

/-- What the commits report. -/
def reports (l : Ledger) : List Operation → List (Except CommitError Bool)
  | [] => []
  | .commit :: os => (l.roster.commit l.queue).2 :: (l.perform .commit).reports os
  | o :: os => (l.perform o).reports os

end Ledger

/-- All that can be read in a state is what the roster says. -/
structure Snapshot.Agrees (s : Snapshot) (name : String) (locale : Option String) (r : Roster) : Prop where
  rule? : ∀ rule, s.rule? rule = r.rule? rule
  isActivatable : ∀ rule, s.isActivatable rule = r.isActivatable rule
  ruleNames : s.ruleNames = r.names
  root : s.root = r.rootName
  candidates : s.candidates = r.candidates
  jsgf : s.jsgf = r.text name locale

/-- What the commits of a run report. -/
def Grammar.reports (g : Grammar) : List Operation → List (Except CommitError Bool)
  | [] => []
  | .commit :: os => g.commit.2 :: (g.perform .commit).reports os
  | o :: os => (g.perform o).reports os

namespace Roster

variable {r t : Roster}

/-! ## What makes a difference -/

theorem names_eq_marks : r.names = r.marks.map Prod.fst := by
  rw [names, marks, List.map_map]
  rfl

theorem differs_eq_false_iff : r.differs t = false ↔ r.marks = t.marks ∧ r.root = t.root := by
  simp [differs]

/-- A change that leads to another roster makes a difference, since it shows in the names, the activation or the
root. -/
theorem eq_of_not_differs {c : Change} (h : r.apply c = .ok t) (hsame : r.differs t = false) : t = r := by
  obtain ⟨hmarks, hroot⟩ := differs_eq_false_iff.mp hsame
  cases c with
  | add rule =>
    simp only [apply] at h
    split at h
    · cases h
    · cases h
      simpa [marks] using congrArg List.length hmarks
  | remove name =>
    simp only [apply] at h
    split at h
    · rename_i hname
      cases h
      -- the name would still be there
      rw [names_eq_marks, hmarks, ← names_eq_marks, names, List.mem_map] at hname
      obtain ⟨x, hx, hxname⟩ := hname
      exact absurd hxname (bne_iff_ne.mp (List.mem_filter.mp hx).2)
    · cases h
  | setActivatable names enabled =>
    simp only [apply] at h
    split at h
    · cases h
    · cases h
      have hrules : ∀ x ∈ r.rules, x = (x.1, if x.1.name ∈ names then enabled else x.2) := by
        intro x hx
        have hmark := List.map_inj_left.mp (hmarks.trans (List.map_map ..)) x hx
        exact Prod.ext rfl (Prod.mk.inj hmark).2
      simp only [← List.map_congr_left hrules, List.map_id']
  | setRoot root =>
    have ht : t = { r with root := root } := by
      cases root with
      | none => cases h; rfl
      | some name =>
        simp only [apply] at h
        split at h
        · cases h
        · cases h; rfl
    subst ht
    exact congrArg (Roster.mk r.rules) hroot.symm

theorem differs_of_ne {c : Change} (h : r.apply c = .ok t) (hne : t ≠ r) : r.differs t = true :=
  Bool.of_not_eq_false fun hsame => hne (eq_of_not_differs h hsame)

/-- Changes of which none makes a difference leave the roster as it is. -/
theorem applyAll_unchanged {cs : List Change} (h : changed (r.applyAll cs).2 = false) : (r.applyAll cs).1 = r := by
  induction cs generalizing r with
  | nil => rfl
  | cons c cs ih =>
    cases happly : r.apply c with
    | error e =>
      simp only [applyAll, happly] at h ⊢
      exact ih h
    | ok t =>
      simp only [applyAll, happly, changed, List.any_cons, Bool.or_eq_false_iff] at h ⊢
      rw [ih h.2, eq_of_not_differs happly h.1]

end Roster

namespace Snapshot

variable {s : Snapshot} {log : List Entry}

/-! ## The roster of a state -/

/-- What is left of a state without its ids. -/
def roster (s : Snapshot) : Roster := ⟨s.entries.map fun e => (e.rule, e.activatable), s.explicitRoot⟩

theorem find?_roster (name : String) : s.roster.find? name = (s.find? name).map fun e => (e.rule, e.activatable) :=
  List.find?_map ..

theorem names_roster : s.roster.names = s.entries.map Entry.name := List.map_map ..

theorem mem_names_roster {name : String} : name ∈ s.roster.names ↔ (s.find? name).isSome = true := by
  rw [names_roster, Option.isSome_iff_ne_none, Ne, find?_eq_none_iff, not_not]

theorem activeNames_roster : s.roster.activeNames = (s.entries.filter Entry.isActive).map Entry.name := by
  rw [Roster.activeNames, roster, List.filter_map, List.map_map]
  rfl

/-- **All that can be read in a state is what its roster says.** -/
theorem agrees_roster (s : Snapshot) : s.Agrees s.name s.locale s.roster where
  rule? := by
    intro name
    rw [Roster.rule?, find?_roster, Option.map_map]
    rfl
  isActivatable := by
    intro name
    rw [Roster.isActivatable, find?_roster, Snapshot.isActivatable]
    cases s.find? name <;> rfl
  ruleNames := names_roster.symm
  root := by
    rw [Roster.rootName, activeNames_roster, List.head?_map, List.head?_filter, Snapshot.root]
    show _ = match s.explicitRoot with | some name => some name | none => _
    cases s.explicitRoot <;> rfl
  candidates := by
    have hactive (name : String) : s.roster.isActivatable name = s.isActivatable name := by
      rw [Roster.isActivatable, find?_roster, Snapshot.isActivatable]
      cases s.find? name <;> rfl
    unfold Roster.candidates Snapshot.candidates
    rw [activeNames_roster, show s.roster.root = s.explicitRoot from rfl]
    cases s.explicitRoot with
    | none => simp
    | some root =>
      simp only [hactive, Option.filter_some]
      cases s.isActivatable root with
      | false => simp
      | true =>
        refine congrArg (root :: ·) (List.filter_congr fun name _ => ?_)
        rw [bne_comm (a := name)]
        rfl
  jsgf := by
    have hrules : (String.join (s.roster.rules.map fun (rule, _) => "\n" ++ String.ofList rule.print)).toList =
        s.entries.flatMap fun e => '\n' :: e.rule.print := by
      simp [roster, String.toList_join, List.flatMap_def, Function.comp_def]
    apply String.toList_inj.mp
    simp only [Snapshot.jsgf, Roster.text, Snapshot.print, String.toList_ofList, String.toList_append, hrules]
    rfl

/-! ## One change -/

theorem requirePublic_eq (use : PublicUse) (name : String) :
    s.requirePublic use name =
      match s.roster.refusal? use name with
      | some e => .error e
      | none => .ok () := by
  unfold requirePublic Roster.refusal?
  rw [find?_roster]
  cases s.find? name with
  | none => rfl
  | some e =>
    simp only [Option.map_some]
    cases e.rule.isPublic <;> rfl

theorem requireAllPublic_eq (use : PublicUse) (names : List String) :
    s.requireAllPublic use names =
      match names.findSome? (s.roster.refusal? use) with
      | some e => .error e
      | none => .ok () := by
  induction names with
  | nil => rfl
  | cons name names ih =>
    rw [requireAllPublic, requirePublic_eq, List.findSome?_cons]
    cases s.roster.refusal? use name with
    | none => exact ih
    | some e => rfl

theorem roster_insert (h : s.Consistent) (rule : Rule) :
    (s.insert rule).roster = { s.roster with rules := s.roster.rules ++ [(rule, rule.isPublic)] } := by
  rw [roster, h.insert_entries, List.map_append]
  rfl

theorem roster_erase (name : String) :
    (s.erase name).roster =
      ⟨s.roster.rules.filter fun (rule, _) => rule.name != name,
        if s.roster.root = some name then none else s.roster.root⟩ := by
  have hroot : s.explicitRoot.filter (· != name) = if s.explicitRoot = some name then none else s.explicitRoot := by
    cases s.explicitRoot with
    | none => rfl
    | some root => by_cases hr : root = name <;> simp [hr]
  simp only [roster, erase, hroot, List.filter_map]
  rfl

theorem roster_activate (names : List String) (enabled : Bool) :
    (s.activate names enabled).roster =
      { s.roster with
        rules := s.roster.rules.map fun (rule, active) => (rule, if rule.name ∈ names then enabled else active) } := by
  simp only [roster, activate, List.map_map]
  refine congrArg (Roster.mk · _) (List.map_congr_left fun e _ => ?_)
  simp only [Function.comp_apply, List.contains_iff_mem, Entry.name]
  split <;> rfl

/-- Activation makes a difference if some entry is not as it is to be. -/
theorem activationDiffers_eq (names : List String) (enabled : Bool) :
    s.activationDiffers names enabled = s.roster.differs (s.activate names enabled).roster := by
  have hmarks : (s.roster.marks = (s.activate names enabled).roster.marks) ↔
      ∀ e ∈ s.entries, e.name ∈ names → e.activatable = enabled := by
    rw [roster_activate]
    simp only [Roster.marks, roster, List.map_map, List.map_inj_left, Function.comp_apply, Prod.mk.injEq, true_and]
    refine forall₂_congr fun e _ => ?_
    by_cases hname : e.name ∈ names
    · simp [hname, show e.rule.name ∈ names from hname]
    · simp [hname, show e.rule.name ∉ names from hname]
  rw [Bool.eq_iff_iff, ← not_iff_not, Bool.not_eq_true, Bool.not_eq_true, Roster.differs_eq_false_iff, hmarks,
    activationDiffers]
  simp [roster, activate]

/-- The change does the same to the state and to its roster: both fail in the same way, or both make a difference, or
neither does. -/
def Mirrored (s : Snapshot) (c : Change) : Prop :=
  (∃ e, s.apply c = .error e ∧ s.roster.apply c = .error e) ∨
    ∃ t, s.apply c = .ok (t, s.roster.differs t.roster) ∧ s.roster.apply c = .ok t.roster

theorem mirrored_add (h : s.Consistent) (rule : Rule) : s.Mirrored (.add rule) := by
  by_cases hname : (s.find? rule.name).isSome = true
  · exact .inl ⟨_, if_pos hname, if_pos (mem_names_roster.mpr hname)⟩
  · have happly : s.roster.apply (.add rule) = .ok (s.insert rule).roster := by
      rw [roster_insert h]
      exact if_neg (mt mem_names_roster.mp hname)
    refine .inr ⟨s.insert rule, ?_, happly⟩
    -- there is one more rule
    rw [Roster.differs_of_ne happly fun heq => by simpa [roster_insert h] using congrArg (·.rules.length) heq]
    exact if_neg hname

theorem mirrored_remove (s : Snapshot) (name : String) : s.Mirrored (.remove name) := by
  by_cases hname : (s.find? name).isSome = true
  · have happly : s.roster.apply (.remove name) = .ok (s.erase name).roster := by
      rw [roster_erase]
      exact if_pos (mem_names_roster.mpr hname)
    refine .inr ⟨s.erase name, ?_, happly⟩
    -- the name is gone
    have hgone : name ∉ (s.erase name).roster.names := by simp [names_roster, erase]
    rw [Roster.differs_of_ne happly fun heq => hgone (heq ▸ mem_names_roster.mpr hname)]
    exact if_pos hname
  · exact .inl ⟨_, if_neg hname, if_neg (mt mem_names_roster.mp hname)⟩

theorem mirrored_setActivatable (s : Snapshot) (names : List String) (enabled : Bool) :
    s.Mirrored (.setActivatable names enabled) := by
  simp only [Mirrored, apply, Roster.apply, requireAllPublic_eq, ← roster_activate]
  cases names.findSome? (s.roster.refusal? .activation) with
  | some e => exact .inl ⟨e, rfl, rfl⟩
  | none => exact .inr ⟨s.activate names enabled, by rw [activationDiffers_eq], rfl⟩

theorem differs_setRoot (s : Snapshot) (root : Option String) :
    s.roster.differs ({ s with explicitRoot := root } : Snapshot).roster = (s.explicitRoot != root) := by
  simp [Roster.differs, Roster.marks, roster]

theorem mirrored_setRoot (s : Snapshot) (root : Option String) : s.Mirrored (.setRoot root) := by
  cases root with
  | none =>
    refine .inr ⟨{ s with explicitRoot := none }, ?_, rfl⟩
    rw [differs_setRoot, apply]
    cases s.explicitRoot <;> rfl
  | some name =>
    simp only [Mirrored, apply, Roster.apply, requirePublic_eq]
    cases s.roster.refusal? .root name with
    | some e => exact .inl ⟨e, rfl, rfl⟩
    | none =>
      refine .inr ⟨{ s with explicitRoot := some name }, ?_, rfl⟩
      rw [differs_setRoot]

/-- **A change of a state is a change of its roster.** -/
theorem apply_roster (h : s.Consistent) : ∀ c : Change, s.Mirrored c
  | .add rule => mirrored_add h rule
  | .remove name => mirrored_remove s name
  | .setActivatable names enabled => mirrored_setActivatable s names enabled
  | .setRoot root => mirrored_setRoot s root

/-! ## One commit -/

/-- **Several changes of a state are changes of its roster**, as long as the ids last. -/
theorem applyAll_roster {cs : List Change} (h : s.Logged log)
    (room : s.nextId.toNat + (s.additions cs).length < 2 ^ 64) :
    (s.applyAll cs).snapshot.roster = (s.roster.applyAll cs).1 ∧
      (s.applyAll cs).changed = Roster.changed (s.roster.applyAll cs).2 ∧
      (s.applyAll cs).applied = Roster.applied (s.roster.applyAll cs).2 ∧
      (s.applyAll cs).failures = Roster.failures (s.roster.applyAll cs).2 := by
  induction cs generalizing s log with
  | nil => exact ⟨rfl, rfl, rfl, rfl⟩
  | cons c cs ih =>
    rcases apply_roster h.consistent c with ⟨e, happly, hroster⟩ | ⟨t, happly, hroster⟩
    · simp only [additions, happly] at room
      obtain ⟨hsame, hchanged, happlied, hfailures⟩ := ih h room
      simp only [applyAll, Roster.applyAll, happly, hroster]
      exact ⟨hsame, hchanged, happlied, congrArg (e :: ·) hfailures⟩
    · simp only [additions, happly, List.length_append] at room
      obtain ⟨ht, hid⟩ := h.apply (by omega) happly
      obtain ⟨hsame, hchanged, happlied, hfailures⟩ := ih ht (by omega)
      simp only [applyAll, Roster.applyAll, happly, hroster]
      refine ⟨hsame, congrArg (_ || ·) hchanged, ?_, hfailures⟩
      rw [Roster.applied, List.countP_cons_of_pos rfl, happlied, Roster.applied]

/-- **A commit is a commit of the roster**, with the same report. -/
theorem commit_roster {cs : List Change} (h : s.Logged log)
    (room : s.nextId.toNat + (s.additions (commitOrder cs)).length < 2 ^ 64) :
    ((s.publish (s.applyAll (commitOrder cs))).roster, Grammar.report (s.applyAll (commitOrder cs))) =
      s.roster.commit cs := by
  obtain ⟨hsame, hchanged, happlied, hfailures⟩ := applyAll_roster h room
  have horder : s.roster.commit cs =
      ((s.roster.applyAll (commitOrder cs)).1, Roster.report (s.roster.applyAll (commitOrder cs)).2) := by
    simp only [Roster.commit, List.partition_eq_filter_filter]
    rfl
  rw [horder]
  refine Prod.ext ?_ ?_
  · unfold publish
    split
    · exact hsame
    · rename_i hnot
      rw [Bool.not_eq_true, hchanged] at hnot
      exact (Roster.applyAll_unchanged hnot).symm
  · simp only [Grammar.report, Roster.report, hchanged, happlied, hfailures]
    cases Roster.failures (s.roster.applyAll (commitOrder cs)).2 <;> rfl

end Snapshot

/-! ## Whole runs -/

namespace Grammar

variable {g : Grammar} {log : List Entry}

/-- What is left of a grammar without ids and generations. -/
def ledger (g : Grammar) : Ledger := ⟨g.committed.roster, g.pending⟩

theorem ledger_commit (h : g.committed.Logged log)
    (room : g.committed.nextId.toNat + (g.given .commit).length < 2 ^ 64) :
    g.commit.1.ledger = g.ledger.perform .commit ∧ g.commit.2 = (g.ledger.roster.commit g.ledger.queue).2 :=
  have hcommit := Prod.ext_iff.mp (Snapshot.commit_roster h room)
  ⟨congrArg (Ledger.mk · []) hcommit.1, hcommit.2⟩

/-- **An operation on a grammar is the same operation on its ledger.** -/
theorem ledger_perform (h : g.committed.Logged log) (o : Operation)
    (room : g.committed.nextId.toNat + (g.given o).length < 2 ^ 64) :
    (g.perform o).ledger = g.ledger.perform o := by
  cases o with
  | addRule rule =>
    simp only [perform, addRule, Ledger.perform, Ledger.change?]
    cases ruleFault? rule with
    | none => rfl
    | some fault => simp
  | commit => exact (ledger_commit h room).1
  | _ => rfl

/-- The commits of a run report what those of the ledger report, and the run ends with the ledger. -/
theorem ledger_run {os : List Operation} (h : g.committed.Logged log)
    (room : g.committed.nextId.toNat + (g.additions os).length < 2 ^ 64) :
    (g.run os).ledger = g.ledger.run os ∧ g.reports os = g.ledger.reports os := by
  induction os generalizing g log with
  | nil => exact ⟨rfl, rfl⟩
  | cons o os ih =>
    simp only [additions, List.length_append] at room
    obtain ⟨hstep, hid⟩ := logged_perform h o (by omega)
    have hledger := ledger_perform h o (by omega)
    obtain ⟨hrun, hreports⟩ := ih hstep (by omega)
    rw [hledger] at hrun hreports
    refine ⟨hrun, ?_⟩
    cases o with
    | commit => exact congrArg₂ List.cons (ledger_commit h (by omega)).2 hreports
    | _ => exact hreports

theorem name_locale_run (g : Grammar) (os : List Operation) :
    (g.run os).committed.name = g.committed.name ∧ (g.run os).committed.locale = g.committed.locale := by
  induction os generalizing g with
  | nil => exact ⟨rfl, rfl⟩
  | cons o os ih =>
    obtain ⟨hname, hlocale⟩ := ih (g.perform o)
    exact ⟨hname.trans (name_perform g o), hlocale.trans (locale_perform g o)⟩

/-- **A run of a grammar cannot be told from the run of a list.** All commits report the same, and in the end all that
can be read is the same; the operations after which something is read are a run as well. -/
theorem run_agrees {name : String} {locale : Option String} {options : SearchOptions} {linked : Bool}
    {os : List Operation}
    (room : ((ofSnapshot (.empty name locale) options linked).additions os).length < 2 ^ 64) :
    (ofSnapshot (.empty name locale) options linked).reports os = Ledger.empty.reports os ∧
      ((ofSnapshot (.empty name locale) options linked).run os).committed.Agrees name locale
        (Ledger.empty.run os).roster := by
  have hlogged : (ofSnapshot (.empty name locale) options linked).committed.Logged [] :=
    (Snapshot.empty_consistent name locale).logged
  have hroom : (ofSnapshot (.empty name locale) options linked).committed.nextId.toNat +
      ((ofSnapshot (.empty name locale) options linked).additions os).length < 2 ^ 64 := by
    show 0 + _ < _
    omega
  obtain ⟨hrun, hreports⟩ := ledger_run hlogged hroom
  obtain ⟨hname, hlocale⟩ := name_locale_run (ofSnapshot (.empty name locale) options linked) os
  have hagrees := ((ofSnapshot (.empty name locale) options linked).run os).committed.agrees_roster
  rw [hname, hlocale, show Snapshot.roster _ = _ from congrArg Ledger.roster hrun] at hagrees
  exact ⟨hreports, hagrees⟩

/-- The reports of the run of the switch, and its rules afterwards. -/
theorem switchRun_agrees :
    switch.reports switchRun = [.ok true, .error ⟨[.undefinedRule "dim", .notPublic "on" .root], 2⟩] ∧
      (switch.run switchRun).committed.ruleNames = ["off", "on"] := by
  have room : (switch.additions switchRun).length < 2 ^ 64 := by
    have hlength : (switch.additions switchRun).length = 3 := by decide +kernel
    rw [hlength]
    decide
  obtain ⟨hreports, hagrees⟩ := run_agrees room
  rw [switch, hreports, hagrees.ruleNames]
  exact ⟨by decide +kernel, by decide +kernel⟩

end Grammar

end SpeechGrammar
