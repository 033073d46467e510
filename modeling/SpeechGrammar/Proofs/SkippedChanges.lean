import SpeechGrammar.Proofs.Generations
import SpeechGrammar.Proofs.Roster

/-!
# Changes that fail

A commit leaves out the changes that fail. What they would have done is not seen by the others, neither by those after
them in the queue nor by those of the root, which are made last: the changes that do not fail lead to the same state when
they are committed alone, and none of them fails then either (**`Snapshot.verdicts_kept`**, **`Snapshot.foldl_kept`**). So
the state that a commit publishes, and whether it differs, depend on the changes that do not fail only, and each of the
others is reported once (**`Grammar.commit_successes`**).
-/

namespace SpeechGrammar

namespace Roster

variable {outcomes : List (Except GrammarError Bool)}

theorem applied_cons_ok (differs : Bool) : applied (.ok differs :: outcomes) = applied outcomes + 1 :=
  List.countP_cons_of_pos rfl

theorem length_failures : (failures outcomes).length + applied outcomes = outcomes.length := by
  induction outcomes with
  | nil => rfl
  | cons outcome outcomes ih =>
    rw [List.length_cons, ← ih]
    cases outcome with
    | error e => exact Nat.succ_add _ _
    | ok differs => exact congrArg ((failures outcomes).length + ·) (applied_cons_ok differs)

theorem failures_filter_isOk : failures (outcomes.filter (·.isOk)) = [] := by
  refine List.filterMap_eq_nil_iff.mpr fun outcome houtcome => ?_
  cases outcome with
  | error e => exact nomatch (List.mem_filter.mp houtcome).2
  | ok differs => rfl

theorem changed_filter_isOk : changed (outcomes.filter (·.isOk)) = changed outcomes := by
  rw [changed, changed, List.any_filter]
  congr 1
  funext outcome
  cases outcome <;> rfl

end Roster

namespace Snapshot

variable {s t : Snapshot} {cs ds : List Change}

/-! ## What changes say -/

/-- The changes, each with what it says in the state that those before it have left. -/
def told (s : Snapshot) (cs : List Change) : List (Change × Except GrammarError Bool) := cs.zip (s.verdicts cs)

/-- The changes that do not fail. -/
def kept (s : Snapshot) (cs : List Change) : List Change := ((s.told cs).filter (·.2.isOk)).map Prod.fst

/-- The changes of a queue, in its order, each with what it says in a commit. Those of the root are made later: the next
one of them finds the state `t`, and the next one of the others the state `s`. -/
def fates (s t : Snapshot) : List Change → List (Change × Except GrammarError Bool)
  | [] => []
  | c :: cs =>
    if c.isSetRoot then (c, t.verdict c) :: fates s (t.after c) cs
    else (c, s.verdict c) :: fates (s.after c) t cs

theorem told_cons (s : Snapshot) (c : Change) (cs : List Change) :
    s.told (c :: cs) = (c, s.verdict c) :: (s.after c).told cs := rfl

theorem length_verdicts : (s.verdicts cs).length = cs.length := by
  induction cs generalizing s with
  | nil => rfl
  | cons c cs ih => exact congrArg (· + 1) ih

theorem map_snd_told : (s.told cs).map Prod.snd = s.verdicts cs :=
  List.map_snd_zip (Nat.le_of_eq length_verdicts)

theorem told_append : s.told (cs ++ ds) = s.told cs ++ (cs.foldl after s).told ds := by
  induction cs generalizing s with
  | nil => rfl
  | cons c cs ih => exact congrArg (_ :: ·) ih

/-- What several changes lead to, and what of it is reported, by what each of them says. -/
theorem applyAll_eq (s : Snapshot) (cs : List Change) : s.applyAll cs =
    ⟨cs.foldl after s, Roster.changed (s.verdicts cs), Roster.applied (s.verdicts cs),
      Roster.failures (s.verdicts cs)⟩ := by
  induction cs generalizing s with
  | nil => rfl
  | cons c cs ih =>
    rw [verdicts, List.foldl_cons]
    cases happly : s.apply c with
    | error e =>
      have hafter : s.after c = s := by rw [after, happly]
      have hverdict : s.verdict c = .error e := by rw [verdict, happly, Except.map]
      rw [applyAll, happly, hafter, hverdict]
      simp only [ih]
      rfl
    | ok result =>
      obtain ⟨t, changed⟩ := result
      have hafter : s.after c = t := by rw [after, happly]
      have hverdict : s.verdict c = .ok changed := by rw [verdict, happly, Except.map]
      rw [applyAll, happly, hafter, hverdict]
      simp only [ih]
      rw [Roster.applied_cons_ok]
      rfl

/-! ## Changes that do not fail -/

theorem kept_cons_of_error {c : Change} {e : GrammarError} (h : s.verdict c = .error e) (cs : List Change) :
    s.kept (c :: cs) = s.kept cs ∧ s.after c = s := by
  have hafter : s.after c = s := by
    rcases s.verdict_cases c with ⟨_, -, hsame⟩ | ⟨hok, -⟩ | ⟨hok, -⟩
    · exact hsame
    all_goals rw [h] at hok; cases hok
  refine ⟨?_, hafter⟩
  rw [kept, told_cons, h, hafter]
  rfl

theorem kept_cons_of_ok {c : Change} {changed : Bool} (h : s.verdict c = .ok changed) :
    s.kept (c :: cs) = c :: (s.after c).kept cs := by
  rw [kept, told_cons, h]
  rfl

/-- **The changes that do not fail lead to the same state** without the others. -/
theorem foldl_kept : (s.kept cs).foldl after s = cs.foldl after s := by
  induction cs generalizing s with
  | nil => rfl
  | cons c cs ih =>
    cases h : s.verdict c with
    | error e =>
      obtain ⟨hkept, hafter⟩ := kept_cons_of_error h cs
      rw [hkept, List.foldl_cons, hafter, ih]
    | ok changed => rw [kept_cons_of_ok h, List.foldl_cons, List.foldl_cons, ih]

/-- **The changes that do not fail say the same** without the others. -/
theorem verdicts_kept : s.verdicts (s.kept cs) = (s.verdicts cs).filter (·.isOk) := by
  induction cs generalizing s with
  | nil => rfl
  | cons c cs ih =>
    cases h : s.verdict c with
    | error e =>
      obtain ⟨hkept, hafter⟩ := kept_cons_of_error h cs
      rw [hkept, ih, verdicts, h, hafter]
      rfl
    | ok changed =>
      rw [kept_cons_of_ok h, verdicts, verdicts, ih, h]
      rfl

/-! ## Changes in the order of the queue -/

theorem map_fst_fates : (fates s t cs).map Prod.fst = cs := by
  induction cs generalizing s t with
  | nil => rfl
  | cons c cs ih =>
    rw [fates]
    split <;> exact congrArg (c :: ·) ih

/-- What is said by the changes of the root, and by the others, is what they say when they are made apart. -/
theorem filter_fates : (fates s t cs).filter (!·.1.isSetRoot) = s.told (cs.filter (!·.isSetRoot)) ∧
    (fates s t cs).filter (·.1.isSetRoot) = t.told (cs.filter Change.isSetRoot) := by
  induction cs generalizing s t with
  | nil => exact ⟨rfl, rfl⟩
  | cons c cs ih =>
    -- a change of the root is made from `t`, and leaves the state `s` to the others
    cases hroot : c.isSetRoot with
    | true =>
      obtain ⟨hothers, hroots⟩ := ih (s := s) (t := t.after c)
      simp only [fates, hroot, ↓reduceIte, List.filter_cons, Bool.not_true, Bool.false_eq_true, hothers, hroots,
        told_cons, and_self]
    | false =>
      obtain ⟨hothers, hroots⟩ := ih (s := s.after c) (t := t)
      simp only [fates, hroot, ↓reduceIte, List.filter_cons, Bool.not_false, Bool.false_eq_true, hothers, hroots,
        told_cons, and_self]

end Snapshot

namespace Grammar

open Snapshot (commitOrder)

variable {g : Grammar}

/-- The queued changes, in the order of the queue, each with what it says in the next commit. -/
def fates (g : Grammar) : List (Change × Except GrammarError Bool) :=
  g.committed.fates ((g.pending.filter (!·.isSetRoot)).foldl Snapshot.after g.committed) g.pending

/-- The queued changes that do not fail in the next commit, in the order of the queue. -/
def successes (g : Grammar) : List Change := (g.fates.filter (·.2.isOk)).map Prod.fst

/-- Why the other ones fail: first those that are not of the root, and then those of the root. -/
def refusals (g : Grammar) : List GrammarError :=
  Roster.failures ((g.fates.filter (!·.1.isSetRoot)).map Prod.snd) ++
    Roster.failures ((g.fates.filter (·.1.isSetRoot)).map Prod.snd)

theorem length_commitOrder (cs : List Change) : (commitOrder cs).length = cs.length := by
  rw [commitOrder, List.length_append, Nat.add_comm]
  exact (List.length_eq_length_filter_add Change.isSetRoot).symm

/-- The changes with what they say, in the order in which a commit makes them. -/
theorem fates_commitOrder :
    g.fates.filter (!·.1.isSetRoot) ++ g.fates.filter (·.1.isSetRoot) = g.committed.told (commitOrder g.pending) := by
  rw [fates, Snapshot.filter_fates.1, Snapshot.filter_fates.2, commitOrder, Snapshot.told_append]

/-- A commit of the changes that do not fail makes them in the order in which the commit of all makes them. -/
theorem commitOrder_successes : commitOrder g.successes = g.committed.kept (commitOrder g.pending) := by
  rw [Snapshot.kept, ← fates_commitOrder, commitOrder, successes, List.filter_map, List.filter_map, ← List.map_append,
    List.filter_append]
  simp only [List.filter_filter, Function.comp_def, Bool.and_comm]

theorem refusals_eq : g.refusals = Roster.failures (g.committed.verdicts (commitOrder g.pending)) := by
  rw [refusals, Roster.failures, Roster.failures, ← List.filterMap_append, ← List.map_append, fates_commitOrder,
    Snapshot.map_snd_told, Roster.failures]

/-- A commit applies the changes that do not fail. -/
theorem length_successes : g.successes.length = Roster.applied (g.committed.verdicts (commitOrder g.pending)) := by
  rw [← length_commitOrder, commitOrder_successes, ← Snapshot.length_verdicts (s := g.committed), Snapshot.verdicts_kept,
    Roster.applied, List.countP_eq_length_filter]

/-- **Changes that fail have no effect on the others.** If a commit is given only the changes that do not fail, in the
order of the queue, it publishes the same state, down to the ids and the generation, and it reports no failure but
whether the state has changed, as the commit of all changes finds it. That one reports each of the others once, those of
the root last. -/
theorem commit_successes (g : Grammar) :
    (g.fates.map Prod.fst = g.pending ∧
      g.fates.filter (!·.1.isSetRoot) ++ g.fates.filter (·.1.isSetRoot) =
        (commitOrder g.pending).zip (g.committed.verdicts (commitOrder g.pending))) ∧
    { g with pending := g.successes }.commit.1 = g.commit.1 ∧ g.commit.1.pending = [] ∧
    ∃ changed, changed = (g.committed.applyAll (commitOrder g.pending)).changed ∧
      { g with pending := g.successes }.commit.2 = .ok changed ∧
      g.commit.2 = (if g.refusals = [] then .ok changed else .error ⟨g.refusals, g.successes.length⟩) ∧
      g.refusals.length + g.successes.length = g.pending.length := by
  -- both commits are told by what their changes say, and those that do not fail say the same in both
  have hall := Snapshot.applyAll_eq g.committed (commitOrder g.pending)
  have honly := Snapshot.applyAll_eq g.committed (commitOrder g.successes)
  rw [commitOrder_successes, Snapshot.foldl_kept, Snapshot.verdicts_kept, Roster.failures_filter_isOk,
    Roster.changed_filter_isOk, ← commitOrder_successes] at honly
  have hlength : g.refusals.length + g.successes.length = g.pending.length := by
    rw [refusals_eq, length_successes, Roster.length_failures, Snapshot.length_verdicts, length_commitOrder]
  refine ⟨⟨Snapshot.map_fst_fates, fates_commitOrder⟩, ?_, rfl, _, rfl, ?_, ?_, hlength⟩
  · simp only [commit, Snapshot.publish, hall, honly]
  · simp only [commit, report, hall, honly, List.isEmpty_nil, ↓reduceIte]
  · rw [length_successes, refusals_eq]
    simp only [commit, report, hall, List.isEmpty_iff]

end Grammar

end SpeechGrammar
