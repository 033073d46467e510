import SpeechGrammar.Proofs.Compilability
import SpeechGrammar.Proofs.ReloadedLanguage
import SpeechGrammar.Proofs.Requests

/-!
# Trying the candidates of a grammar

A parse without a rule tries the candidates in order and stops at the first parse, and another search collects all
parses. Both come to what the parses by each of the names come to (**`firstParse_eq`**, **`allParses_eq`**): those that
there are, in order, or the first error if none of the candidates can be compiled. In every grammar of a workspace the
entries are in the order of their ids and no two have the same name, also if the ids start again, and so no candidate is
tried twice (**`Workspace.parse_candidates`**).
-/

namespace SpeechGrammar

/-! ## Trying rules in order -/

section

variable (attempt : String → Except GrammarError (Option Parse))

/-- The parse of a rule, if it can be compiled and has one. -/
def parseOf? (name : String) : Option Parse :=
  match attempt name with
  | .ok p => p
  | .error _ => none

/-- Why a rule cannot be compiled. -/
def errorOf? (name : String) : Option GrammarError :=
  match attempt name with
  | .ok _ => none
  | .error e => some e

/-- Some of the rules can be compiled. -/
def someCompiled (names : List String) : Bool := names.any fun name => (attempt name).isOk

theorem someCompiled_iff {names : List String} :
    someCompiled attempt names = true ↔ ∃ name ∈ names, ∃ p, attempt name = .ok p := by
  refine List.any_eq_true.trans (exists_congr fun name => and_congr_right fun _ => ?_)
  cases attempt name <;> simp [Except.isOk, Except.toBool]

theorem withoutParse_true {α : Type} (failure : Option GrammarError) (a : α) : withoutParse failure true a = .ok a := by
  cases failure <;> rfl

/-- **All parses are those of the rules that have one**, in order, or else the first error counts. -/
theorem allParses_eq (names : List String) (failure : Option GrammarError) (compiled : Bool) :
    allParses attempt failure compiled names =
      withoutParse (failure.or (names.findSome? (errorOf? attempt))) (compiled || someCompiled attempt names)
        (names.filterMap (parseOf? attempt)) := by
  induction names generalizing failure compiled with
  | nil => simp [allParses, someCompiled]
  | cons name names ih =>
    rw [allParses, List.findSome?_cons, List.filterMap_cons, someCompiled, List.any_cons, ← someCompiled]
    simp only [parseOf?, errorOf?]
    cases attempt name with
    | ok p =>
      cases p with
      | none => simp only [ih, Except.isOk, Except.toBool, Bool.true_or, Bool.or_true, withoutParse_true]
      | some p =>
        simp only [ih, Except.isOk, Except.toBool, Bool.true_or, Bool.or_true, withoutParse_true, Except.map]
    | error e =>
      simp only [ih, Except.isOk, Except.toBool, Bool.false_or, Option.or_assoc, Option.some_or]

/-- **The first parse is that of the first rule that has one**, or else the first error counts. -/
theorem firstParse_eq (names : List String) (failure : Option GrammarError) (compiled : Bool) :
    firstParse attempt failure compiled names =
      withoutParse (failure.or (names.findSome? (errorOf? attempt))) (compiled || someCompiled attempt names)
        (names.filterMap (parseOf? attempt)).head? := by
  induction names generalizing failure compiled with
  | nil => simp [firstParse, someCompiled]
  | cons name names ih =>
    rw [firstParse, List.findSome?_cons, List.filterMap_cons, someCompiled, List.any_cons, ← someCompiled]
    simp only [parseOf?, errorOf?]
    cases attempt name with
    | ok p =>
      cases p with
      | none => simp only [ih, Except.isOk, Except.toBool, Bool.true_or, Bool.or_true, withoutParse_true]
      | some p => simp only [Except.isOk, Except.toBool, Bool.true_or, Bool.or_true, withoutParse_true, List.head?_cons]
    | error e =>
      simp only [ih, Except.isOk, Except.toBool, Bool.false_or, Option.or_assoc, Option.some_or]

end

/-! ## The candidates -/

namespace Snapshot

variable {s t : Snapshot}

/-- The explicit root, if it can be activated. -/
def preferred? (s : Snapshot) : Option String := s.explicitRoot.filter s.isActivatable

/-- The other active rules, in order. -/
def others (s : Snapshot) : List Entry := s.entries.filter fun e => e.isActive && s.preferred? != some e.name

/-- Entries in the order of their ids, each with a name of its own. Two ids may be the same after they have started
again. -/
structure Listed (entries : List Entry) : Prop where
  names : (entries.map Entry.name).Nodup
  sorted : entries.Pairwise (·.id ≤ ·.id)

theorem candidates_eq (s : Snapshot) : s.candidates = s.preferred?.toList ++ s.others.map Entry.name := by
  simp only [candidates, others, preferred?, List.filter_map, List.filter_filter, Function.comp_def, Bool.and_comm]

/-- **No rule is a candidate twice.** -/
theorem Listed.nodup_candidates (h : Listed s.entries) : s.candidates.Nodup := by
  rw [candidates_eq, List.nodup_append]
  refine ⟨?_, h.names.sublist (List.filter_sublist.map Entry.name), ?_⟩
  · cases s.preferred? <;> simp
  · rintro root hroot name hname rfl
    obtain ⟨e, he, rfl⟩ := List.mem_map.mp hname
    have hother := (List.mem_filter.mp he).2
    rw [Option.mem_toList.mp hroot] at hother
    simp at hother

theorem place_sorted {e : Entry} {es : List Entry} (h : es.Pairwise (·.id ≤ ·.id)) :
    (place e es).Pairwise (·.id ≤ ·.id) := by
  induction es with
  | nil => exact List.pairwise_singleton _ _
  | cons f fs ih =>
    obtain ⟨hfirst, hrest⟩ := List.pairwise_cons.mp h
    rw [place]
    split
    · rename_i hlt
      have hle := UInt64.le_of_lt hlt
      exact List.pairwise_cons.mpr ⟨List.forall_mem_cons.mpr ⟨hle, fun g hg => UInt64.le_trans hle (hfirst g hg)⟩, h⟩
    · rename_i hnot
      refine List.pairwise_cons.mpr ⟨fun g hg => ?_, ih hrest⟩
      rcases mem_place.mp hg with rfl | hg
      · exact UInt64.not_lt.mp hnot
      · exact hfirst g hg

/-- A change keeps the entries listed, also when the ids start again. -/
theorem Listed.apply {c : Change} {changed : Bool} (happly : s.apply c = .ok (t, changed)) (h : Listed s.entries) :
    Listed t.entries where
  names := names_apply happly h.names
  sorted := by
    obtain ⟨rule, rfl, -, rfl, -⟩ | ⟨old, rfl, rfl⟩ | ⟨names, enabled, rfl, -, rfl⟩ | ⟨rfl, rfl⟩ | ⟨root, rfl, -, rfl⟩ :=
      apply_cases happly
    · exact place_sorted h.sorted
    · exact h.sorted.filter _
    · refine List.pairwise_map.mpr (h.sorted.imp fun {e f} hle => ?_)
      split <;> split <;> exact hle
    · exact h.sorted
    · exact h.sorted

end Snapshot

namespace Workspace

variable {w w' : Workspace} {g : Grammar} {h : Handle} {P : Grammar → Prop}

/-! ## The grammars of a workspace -/

theorem forall_of_keep (hg : P g) (hw : ∀ f ∈ w.grammars, P f) : ∀ f ∈ (w.keep g).2.grammars, P f :=
  fun f hf => (Array.mem_push.mp hf).elim (hw f) fun heq => heq ▸ hg

theorem forall_of_register (hg : P g) (hr : w.register g = .ok (h, w')) (hw : ∀ f ∈ w.grammars, P f) :
    ∀ f ∈ w'.grammars, P f := by
  obtain ⟨-, rfl, rfl⟩ := register_eq_ok_iff.mp hr
  exact forall_of_keep hg hw

theorem forall_of_addRules (hstep : ∀ g o, P g → P (g.perform o)) {rules : List Rule} {next : Grammar} (hg : P g)
    (hadd : g.addRules rules = .ok next) : P next := by
  induction rules generalizing g with
  | nil =>
    cases hadd
    exact hg
  | cons rule rules ih =>
    rw [Grammar.addRules] at hadd
    cases hone : g.addRule rule with
    | error e => rw [hone] at hadd; cases hadd
    | ok queued =>
      rw [hone] at hadd
      exact ih (Grammar.perform_of_addRule hone ▸ hstep g (.addRule rule) hg) hadd

/-- **Every grammar of a workspace comes from an empty or a cached one** by operations on it. So what holds of those, and
is kept by every operation, holds of all. -/
theorem Reachable.forall_grammars
    (hempty : ∀ name locale options linked, P (.ofSnapshot (.empty name locale) options linked))
    (hcached : ∀ bytes s options linked, Cache.decode bytes = .ok s → P (.ofSnapshot s options linked))
    (hstep : ∀ g o, P g → P (g.perform o)) (hw : w.Reachable) : ∀ g ∈ w.grammars, P g := by
  induction hw with
  | empty => exact nofun
  | create _ hcreate ih =>
    refine forall_of_register ?_ hcreate ih
    split
    · exact hstep _ (.setRoot _) (hempty _ _ _ true)
    · exact hempty _ _ _ true
  | @load v _ _ _ _ hload ih =>
    obtain ⟨doc, g, -, -, hg, hr⟩ := load_eq_ok_iff.mp hload
    obtain ⟨hrules, rfl, -⟩ := grammarOf_eq_ok_iff.mp hg
    have hqueued : P (v.queued doc) :=
      forall_of_addRules hstep (hempty _ _ _ true) (Grammar.addRules_eq_ok_iff.mpr ⟨hrules, rfl⟩)
    exact forall_of_register (hstep _ .commit hqueued) hr ih
  | restore _ hrestore ih =>
    obtain ⟨s, hs, hr⟩ := restore_eq_ok_iff.mp hrestore
    exact forall_of_register (hcached _ s _ true hs) hr ih
  | delete _ hdelete ih =>
    rw [delete_eq_ok hdelete]
    exact ih
  | clear _ ih => exact ih
  | keepEmpty _ ih => exact forall_of_keep (hempty _ _ _ false) ih
  | keepDecoded _ hg ih =>
    obtain ⟨s, hs, rfl⟩ := Grammar.decode_eq_ok hg
    exact forall_of_keep (hcached _ s _ false hs) ih
  | perform h o _ ih =>
    intro f hf
    obtain ⟨i, hi⟩ := Array.getElem?_of_mem hf
    simp only [modify, Array.getElem?_modify] at hi
    split at hi
    · obtain ⟨g, hg, rfl⟩ := Option.map_eq_some_iff.mp hi
      exact hstep g o (ih g (Array.mem_of_getElem? hg))
    · exact ih f (Array.mem_of_getElem? hi)

/-- **The entries of every grammar are listed.** -/
theorem Reachable.listed (hw : w.Reachable) : ∀ g ∈ w.grammars, Snapshot.Listed g.committed.entries := by
  refine hw.forall_grammars (P := fun g => Snapshot.Listed g.committed.entries) (fun _ _ _ _ => ⟨.nil, .nil⟩)
    (fun bytes s _ _ hs => ?_) fun g o hg => Grammar.entries_perform (fun _ _ _ _ => Snapshot.Listed.apply) hg o
  have hconsistent := (Cache.storable_of_decode hs).toConsistent
  exact ⟨hconsistent.names, hconsistent.ascending.imp UInt64.le_of_lt⟩

/-! ## Parses without a rule -/

/-- Without candidates there is nothing to try. -/
theorem parse_of_candidates_nil (spoken : List String) (hnone : g.committed.candidates = []) :
    w.parse g spoken none = .error (.noRootRule g.name) ∧ w.parseAll g spoken = .error (.noRootRule g.name) := by
  have hcandidates : (w.environment g).candidates = .error (.noRootRule g.name) := by
    rw [Environment.candidates, show (w.environment g).start.candidates = [] from hnone]
    rfl
  constructor
  · rw [parse, Environment.parse, hcandidates]
  · rw [parseAll, Environment.parseAll, hcandidates]

/-- What the two searches come to if there are candidates. -/
theorem parse_of_candidates_ne_nil (spoken : List String) (hsome : g.committed.candidates ≠ []) :
    let attempt := fun name => w.parse g spoken (some name)
    let names := g.committed.candidates
    w.parse g spoken none =
        withoutParse (names.findSome? (errorOf? attempt)) (someCompiled attempt names)
          (names.filterMap (parseOf? attempt)).head? ∧
      w.parseAll g spoken =
        withoutParse (names.findSome? (errorOf? attempt)) (someCompiled attempt names)
          (names.filterMap (parseOf? attempt)) := by
  intro attempt names
  have hcandidates : (w.environment g).candidates = .ok names := by
    rw [Environment.candidates, show (w.environment g).start.candidates = g.committed.candidates from rfl]
    split
    · rename_i hnil
      exact absurd hnil hsome
    · rfl
  constructor
  · have h := firstParse_eq attempt names none false
    rw [Option.none_or, Bool.false_or] at h
    rw [← h, parse, Environment.parse, hcandidates]
    rfl
  · have h := allParses_eq attempt names none false
    rw [Option.none_or, Bool.false_or] at h
    rw [← h, parseAll, Environment.parseAll, hcandidates]
    rfl

/-- **Parses without a rule are those of the candidates.** These are the explicit root, if it can be activated, and then
the other active rules in the order of their ids, none of them twice. Without candidates both searches fail. If none of
the candidates can be compiled, both fail as the first one does. Otherwise one of them returns all parses that there are,
in the order of the candidates, and the other one the first of these. -/
theorem parse_candidates (hw : w.Reachable) (hg : w.grammar? h = some g) (spoken : List String) :
    (g.committed.candidates = g.committed.preferred?.toList ++ g.committed.others.map Entry.name ∧
      g.committed.others.Pairwise (·.id ≤ ·.id) ∧ g.committed.candidates.Nodup) ∧
    (g.committed.candidates = [] →
      w.parse g spoken none = .error (.noRootRule g.name) ∧ w.parseAll g spoken = .error (.noRootRule g.name)) ∧
    (∀ first rest e, g.committed.candidates = first :: rest → w.parse g spoken (some first) = .error e →
      (∀ name ∈ rest, ∃ e', w.parse g spoken (some name) = .error e') →
      w.parse g spoken none = .error e ∧ w.parseAll g spoken = .error e) ∧
    ((∃ name ∈ g.committed.candidates, ∃ result, w.parse g spoken (some name) = .ok result) →
      ∃ parses, parses = g.committed.candidates.filterMap (parseOf? fun name => w.parse g spoken (some name)) ∧
        w.parseAll g spoken = .ok parses ∧ w.parse g spoken none = .ok parses.head?) := by
  have hlisted := hw.listed g (mem_grammars_of_grammar? hg)
  refine ⟨⟨Snapshot.candidates_eq _, hlisted.sorted.filter _, hlisted.nodup_candidates⟩,
    parse_of_candidates_nil spoken, fun first rest e hcs hfirst hrest => ?_, ?_⟩
  · have hnot : ¬∃ name ∈ g.committed.candidates, ∃ p, w.parse g spoken (some name) = .ok p := by
      rintro ⟨name, hname, p, hp⟩
      rw [hcs] at hname
      rcases List.mem_cons.mp hname with rfl | hname
      · exact nomatch hp.symm.trans hfirst
      · obtain ⟨e', he'⟩ := hrest name hname
        exact nomatch hp.symm.trans he'
    have herror : g.committed.candidates.findSome? (errorOf? fun name => w.parse g spoken (some name)) = some e := by
      rw [hcs, List.findSome?_cons, errorOf?, hfirst]
    obtain ⟨hone, hall⟩ := parse_of_candidates_ne_nil (w := w) spoken (hcs ▸ List.cons_ne_nil first rest)
    rw [hone, hall, Bool.eq_false_iff.mpr fun h => hnot ((someCompiled_iff _).mp h), herror]
    exact ⟨rfl, rfl⟩
  · intro hsome
    obtain ⟨name, hname, -⟩ := id hsome
    obtain ⟨hone, hall⟩ := parse_of_candidates_ne_nil (w := w) spoken (List.ne_nil_of_mem hname)
    rw [hone, hall, (someCompiled_iff fun name => w.parse g spoken (some name)).mpr hsome, withoutParse_true,
      withoutParse_true]
    exact ⟨_, rfl, rfl, rfl⟩

/-- The rule that needs itself is passed over, and the other one is parsed. -/
theorem shop_parse_candidates :
    shop.Reachable ∧ shop.grammar? 1 = some switches ∧ switches.committed.candidates = ["switch", "endless"] ∧
      shop.parse switches ["turn", "ON", "green"] (some "endless") =
        .error (.cyclicReference ["endless", "endless"]) ∧
      ∃ p, shop.parse switches ["turn", "ON", "green"] (some "switch") = .ok (some p) ∧
        shop.parse switches ["turn", "ON", "green"] none = .ok (some p) ∧
        shop.parseAll switches ["turn", "ON", "green"] = .ok [p] := by
  have hmem : shop.grammar? 1 = some switches := rfl
  have hcandidates : switches.committed.candidates = ["switch", "endless"] := by cbv
  have hendless : shop.parse switches ["turn", "ON", "green"] (some "endless") =
      .error (.cyclicReference ["endless", "endless"]) := by cbv
  have hswitch : shop.parse switches ["turn", "ON", "green"] (some "switch") =
      .ok (some ⟨"switch", .sequence [.token "turn on", .rule "lamp" (.alternative 1 (.token "green"))]⟩) := by cbv
  obtain ⟨parses, hparses, hall, hfirst⟩ :=
    (parse_candidates shop_reachable hmem ["turn", "ON", "green"]).2.2.2 ⟨"switch", by simp [hcandidates], _, hswitch⟩
  simp only [hcandidates, List.filterMap_cons, List.filterMap_nil, parseOf?, hswitch, hendless] at hparses
  subst hparses
  exact ⟨shop_reachable, hmem, hcandidates, hendless, _, hswitch, hfirst, hall⟩

end Workspace

end SpeechGrammar
