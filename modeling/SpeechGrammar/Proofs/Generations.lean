import SpeechGrammar.Proofs.Runs

/-!
# Generations

The generation of a state tells which state it is. A change that does not fail says that it made a difference exactly
if it made one (**`Snapshot.verdict_cases`**). So a commit publishes a new state, under the next generation, if one of
its changes made a difference, and else leaves the published state alone (**`Snapshot.publish_cases`**). Over a whole run
the generation never goes down, and there is one published state for each generation
(**`Grammar.published_generation`**), as long as the generations last.
-/

namespace SpeechGrammar

namespace Snapshot

/-- What a change says: why it failed, or whether it made a difference. -/
def verdict (s : Snapshot) (c : Change) : Except GrammarError Bool := (s.apply c).map Prod.snd

/-- The state after a change, which is the same one if the change fails. -/
def after (s : Snapshot) (c : Change) : Snapshot :=
  match s.apply c with
  | .ok (t, _) => t
  | .error _ => s

/-- What the changes of a commit say, each of them made in the state that those before it have left. -/
def verdicts (s : Snapshot) : List Change → List (Except GrammarError Bool)
  | [] => []
  | c :: cs => s.verdict c :: (s.after c).verdicts cs

/-- Where a difference that a change makes can be seen. -/
def marks (s : Snapshot) : List (UInt64 × Bool) × Option String × UInt64 :=
  (s.entries.map fun e => (e.id, e.activatable), s.explicitRoot, s.nextId)

section

variable {s t : Snapshot} {c : Change} {name : String} {names : List String} {enabled : Bool}

/-! ## One change -/

theorem map_marks_eq_of_sameEntries : ∀ {es fs : List Entry}, sameEntries es fs = true →
    es.map (fun e => (e.id, e.activatable)) = fs.map fun e => (e.id, e.activatable)
  | [], [], _ => rfl
  | [], _ :: _, h => nomatch h
  | _ :: _, [], h => nomatch h
  | e :: es, f :: fs, h => by
    simp only [sameEntries, Entry.same, Bool.and_eq_true, beq_iff_eq] at h
    obtain ⟨⟨⟨-, hid⟩, hactivatable⟩, hrest⟩ := h
    simp only [List.map_cons, hid, hactivatable, map_marks_eq_of_sameEntries hrest]

/-- States that are the same when their numbers are compared have the same marks. -/
theorem marks_eq_of_same (h : s.same t = true) : s.marks = t.marks := by
  simp only [same, Bool.and_eq_true, beq_iff_eq] at h
  obtain ⟨⟨⟨⟨-, hentries⟩, hroot⟩, hid⟩, -⟩ := h
  rw [marks, marks, map_marks_eq_of_sameEntries hentries, hroot, hid]

/-- Another id is the next one when a rule has been added. -/
theorem marks_insert (rule : Rule) : (s.insert rule).marks ≠ s.marks := by
  intro h
  have hid : s.nextId + 1 = s.nextId := congrArg (fun m => m.2.2) h
  exact absurd (UInt64.add_eq_left.mp hid) (by decide)

/-- A state with a rule has fewer entries without it. -/
theorem marks_erase (h : (s.find? name).isSome) : (s.erase name).marks ≠ s.marks := by
  intro hmarks
  obtain ⟨e, he⟩ := Option.isSome_iff_exists.mp h
  obtain ⟨hmem, hn⟩ := mem_of_find? he
  have hlength : (s.erase name).entries.length = s.entries.length := by
    simpa only [marks, List.length_map] using congrArg (fun m => m.1.length) hmarks
  have hall := List.filter_eq_self.mp (List.filter_sublist.eq_of_length hlength) e hmem
  rw [hn, bne_self_eq_false] at hall
  cases hall

/-- If no flag is to be another one, then activation leaves the state. -/
theorem activate_eq_self (h : s.activationDiffers names enabled = false) : s.activate names enabled = s := by
  rw [activationDiffers, List.any_eq_false] at h
  have hentries : (s.activate names enabled).entries = s.entries := by
    refine (List.map_congr_left fun e he => ?_).trans (List.map_id _)
    split
    · rename_i hn
      have hsame : e.activatable = enabled := by
        have hflag := h e he
        rwa [hn, Bool.true_and, bne_iff_ne, not_not] at hflag
      rw [← hsame, id]
    · rfl
  exact congrArg (fun es => { s with entries := es }) hentries

/-- If a flag is to be another one, then activation changes it. -/
theorem marks_activate (h : s.activationDiffers names enabled = true) : (s.activate names enabled).marks ≠ s.marks := by
  intro hmarks
  obtain ⟨e, he, hdiffers⟩ := List.any_eq_true.mp h
  rw [Bool.and_eq_true, bne_iff_ne] at hdiffers
  have hflags := congrArg Prod.fst hmarks
  simp only [marks, activate, List.map_map, List.map_inj_left, Function.comp_apply, Prod.mk.injEq] at hflags
  have hflag := (hflags e he).2
  rw [if_pos hdiffers.1] at hflag
  exact hdiffers.2 hflag.symm

/-- A change that makes no difference leaves the state. -/
theorem eq_of_apply_false (h : s.apply c = .ok (t, false)) : t = s := by
  cases c with
  | add rule =>
    simp only [apply] at h
    split at h <;> cases h
  | remove name =>
    simp only [apply] at h
    split at h <;> cases h
  | setActivatable names enabled =>
    simp only [apply] at h
    split at h
    · cases h
    · injection h with h
      obtain ⟨rfl, hdiffers⟩ := Prod.mk.inj h
      exact activate_eq_self hdiffers
  | setRoot root =>
    cases root with
    | none =>
      injection h with h
      obtain ⟨rfl, hroot⟩ := Prod.mk.inj h
      rw [← Option.isNone_iff_eq_none.mp (Option.isSome_eq_false_iff.mp hroot)]
    | some name =>
      simp only [apply] at h
      split at h
      · cases h
      · injection h with h
        obtain ⟨rfl, hroot⟩ := Prod.mk.inj h
        rw [← bne_eq_false_iff_eq.mp hroot]

/-- A change that makes a difference leaves a mark. -/
theorem marks_of_apply_true (h : s.apply c = .ok (t, true)) : t.marks ≠ s.marks := by
  cases c with
  | add rule =>
    simp only [apply] at h
    split at h <;> cases h
    exact marks_insert rule
  | remove name =>
    simp only [apply] at h
    split at h
    · rename_i hfound
      cases h
      exact marks_erase hfound
    · cases h
  | setActivatable names enabled =>
    simp only [apply] at h
    split at h
    · cases h
    · injection h with h
      obtain ⟨rfl, hdiffers⟩ := Prod.mk.inj h
      exact marks_activate hdiffers
  | setRoot root =>
    have hne : t.explicitRoot ≠ s.explicitRoot := by
      cases root with
      | none =>
        injection h with h
        obtain ⟨rfl, hroot⟩ := Prod.mk.inj h
        exact (Option.isSome_iff_ne_none.mp hroot).symm
      | some name =>
        simp only [apply] at h
        split at h
        · cases h
        · injection h with h
          obtain ⟨rfl, hroot⟩ := Prod.mk.inj h
          exact (bne_iff_ne.mp hroot).symm
    exact fun hmarks => hne (congrArg (fun m => m.2.1) hmarks)

/-- **A change fails, or it makes no difference and says so, or it makes one and says so.** States are told apart here
also if weights and probabilities are compared as numbers. -/
theorem verdict_cases (s : Snapshot) (c : Change) :
    (∃ e, s.verdict c = .error e ∧ s.after c = s) ∨ (s.verdict c = .ok false ∧ s.after c = s) ∨
      (s.verdict c = .ok true ∧ s.after c ≠ s ∧ s.same (s.after c) = false) := by
  unfold verdict after
  cases happly : s.apply c with
  | error e => exact .inl ⟨e, rfl, rfl⟩
  | ok result =>
    obtain ⟨t, changed⟩ := result
    cases changed with
    | false => exact .inr (.inl ⟨rfl, eq_of_apply_false happly⟩)
    | true =>
      have hmarks := marks_of_apply_true happly
      refine .inr (.inr ⟨rfl, fun h => hmarks (congrArg marks h), Bool.eq_false_iff.mpr fun h => hmarks ?_⟩)
      exact (marks_eq_of_same h).symm

/-! ## One commit -/

/-- The state that several changes lead to, and whether one of them says that it made a difference. -/
theorem applyAll_verdicts (cs : List Change) :
    (s.applyAll cs).snapshot = cs.foldl after s ∧ ((s.applyAll cs).changed = true ↔ .ok true ∈ s.verdicts cs) := by
  induction cs generalizing s with
  | nil => exact ⟨rfl, by simp [applyAll, verdicts]⟩
  | cons c cs ih =>
    obtain ⟨hsnapshot, hchanged⟩ := ih (s := s.after c)
    rw [verdicts, List.foldl_cons, List.mem_cons, ← hsnapshot, ← hchanged]
    simp only [applyAll, verdict, after]
    cases s.apply c with
    | error e => exact ⟨rfl, by simp [Except.map]⟩
    | ok result =>
      obtain ⟨t, changed⟩ := result
      refine ⟨rfl, ?_⟩
      cases changed <;> simp [Except.map]

/-- **A commit publishes the state that its changes lead to as the next generation if one of them made a difference**,
also if others failed, and else it leaves the published state. -/
theorem publish_cases (s : Snapshot) (cs : List Change) :
    (.ok true ∈ s.verdicts cs ∧
      s.publish (s.applyAll cs) = { cs.foldl after s with generation := s.generation + 1 }) ∨
    (.ok true ∉ s.verdicts cs ∧ s.publish (s.applyAll cs) = s) := by
  obtain ⟨hsnapshot, hchanged⟩ := applyAll_verdicts (s := s) cs
  rw [publish, ← hsnapshot, ← hchanged]
  cases (s.applyAll cs).changed with
  | true => exact .inl ⟨rfl, rfl⟩
  | false => exact .inr ⟨Bool.false_ne_true, rfl⟩

end

end Snapshot

namespace Grammar

/-- The operation is a commit, and one of its changes makes a difference. -/
def renews (g : Grammar) : Operation → Bool
  | .commit => (g.committed.applyAll (Snapshot.commitOrder g.pending)).changed
  | _ => false

/-- How many of the operations publish a new state. -/
def renewals (g : Grammar) : List Operation → Nat
  | [] => 0
  | o :: os => (g.renews o).toNat + (g.perform o).renewals os

section

variable {g : Grammar} {os : List Operation}

/-! ## Runs -/

/-- An operation publishes the next generation, or the committed state stays as it is. -/
theorem perform_renews (g : Grammar) (o : Operation) :
    (g.renews o = true ∧ (g.perform o).committed.generation = g.committed.generation + 1) ∨
      (g.renews o = false ∧ (g.perform o).committed = g.committed) := by
  by_cases ho : o = .commit
  · subst ho
    simp only [renews, perform, commit, Snapshot.publish]
    cases (g.committed.applyAll (Snapshot.commitOrder g.pending)).changed with
    | true => exact .inl ⟨rfl, rfl⟩
    | false => exact .inr ⟨rfl, rfl⟩
  · refine .inr ⟨?_, (perform_committed ho).1⟩
    cases o with
    | commit => exact absurd rfl ho
    | _ => rfl

theorem toNat_generation_perform {o : Operation}
    (room : g.committed.generation.toNat + (g.renews o).toNat < 2 ^ 64) :
    (g.perform o).committed.generation.toNat = g.committed.generation.toNat + (g.renews o).toNat := by
  rcases perform_renews g o with ⟨ho, hnext⟩ | ⟨ho, hsame⟩
  · rw [ho, Bool.toNat_true] at room ⊢
    rw [hnext, UInt64.toNat_add, UInt64.toNat_one, Nat.mod_eq_of_lt room]
  · rw [ho, hsame, Bool.toNat_false, Nat.add_zero]

/-- **The generation counts the operations that publish a new state.** -/
theorem toNat_generation_run (room : g.committed.generation.toNat + g.renewals os < 2 ^ 64) :
    (g.run os).committed.generation.toNat = g.committed.generation.toNat + g.renewals os := by
  induction os generalizing g with
  | nil => rfl
  | cons o os ih =>
    simp only [renewals] at room
    have hstep := toNat_generation_perform (g := g) (o := o) (by omega)
    rw [run, renewals, ih (by omega), hstep, Nat.add_assoc]

/-- Of two published states the later one is the same or has a greater generation. -/
theorem published_renewed (room : g.committed.generation.toNat + g.renewals os < 2 ^ 64) :
    (∀ t ∈ g.published os, g.committed = t ∨ g.committed.generation < t.generation) ∧
      (g.published os).Pairwise fun s t => s = t ∨ s.generation < t.generation := by
  induction os generalizing g with
  | nil => simp [published]
  | cons o os ih =>
    simp only [renewals] at room
    have hstep := toNat_generation_perform (g := g) (o := o) (by omega)
    obtain ⟨hall, hpairs⟩ := ih (g := g.perform o) (by omega)
    have hlater : ∀ t ∈ (g.perform o).published os, g.committed = t ∨ g.committed.generation < t.generation := by
      intro t ht
      rcases perform_renews g o with ⟨ho, -⟩ | ⟨-, hsame⟩
      · -- every later state has at least the generation that this operation publishes
        have hnext : g.committed.generation < (g.perform o).committed.generation := by
          rw [UInt64.lt_iff_toNat_lt, hstep, ho, Bool.toNat_true]
          exact Nat.lt_succ_self _
        rcases hall t ht with rfl | hlt
        · exact .inr hnext
        · exact .inr (UInt64.lt_trans hnext hlt)
      · rw [← hsame]
        exact hall t ht
    rw [published, List.forall_mem_cons, List.pairwise_cons]
    exact ⟨⟨.inl rfl, hlater⟩, hlater, hpairs⟩

theorem renewals_append (earlier later : List Operation) :
    g.renewals (earlier ++ later) = g.renewals earlier + (g.run earlier).renewals later := by
  induction earlier generalizing g with
  | nil => rw [List.nil_append, renewals, Nat.zero_add, run]
  | cons o os ih => rw [List.cons_append, renewals, renewals, ih, Nat.add_assoc, run]

/-- **A generation has one published state.** Whatever the state, a change fails and leaves it, or says that it makes no
difference and leaves it, or says that it makes a difference and leads to another state. Each commit of a run, as long
as the generations last, publishes the state its changes lead to, with the generation greater by one, exactly if one of
them makes a difference, whether or not others fail; and else all fields of the published state stay. So the
generation never goes down, and published states of the same generation are equal. -/
theorem published_generation (room : g.committed.generation.toNat + g.renewals os < 2 ^ 64) :
    (∀ (s : Snapshot) (c : Change),
      (∃ e, s.verdict c = .error e ∧ s.after c = s) ∨ (s.verdict c = .ok false ∧ s.after c = s) ∨
        (s.verdict c = .ok true ∧ s.after c ≠ s ∧ s.same (s.after c) = false)) ∧
      (∀ earlier later, os = earlier ++ .commit :: later →
        ∀ h t cs, h = g.run earlier → t = h.commit.1.committed → cs = Snapshot.commitOrder h.pending →
          (.ok true ∈ h.committed.verdicts cs ∧ t.generation.toNat = h.committed.generation.toNat + 1 ∧
            t = { cs.foldl Snapshot.after h.committed with generation := t.generation }) ∨
          (.ok true ∉ h.committed.verdicts cs ∧ t = h.committed)) ∧
      (g.published os).Pairwise fun s t => s.generation ≤ t.generation ∧ (s.generation = t.generation → s = t) := by
  refine ⟨Snapshot.verdict_cases, ?_, (published_renewed room).2.imp ?_⟩
  · rintro earlier later rfl h t cs rfl rfl rfl
    rw [renewals_append, renewals] at room
    have hearlier : g.committed.generation.toNat + g.renewals earlier < 2 ^ 64 := by omega
    have hrun := toNat_generation_run hearlier
    have hcommit := toNat_generation_perform (g := g.run earlier) (o := .commit) (by omega)
    rcases Snapshot.publish_cases (g.run earlier).committed (Snapshot.commitOrder (g.run earlier).pending) with
      ⟨hyes, hpublish⟩ | ⟨hno, hpublish⟩
    · refine .inl ⟨hyes, ?_, ?_⟩
      · have hchanged : (g.run earlier).renews .commit = true := (Snapshot.applyAll_verdicts _).2.mpr hyes
        rw [hchanged, Bool.toNat_true] at hcommit
        exact hcommit
      · simp only [commit, hpublish]
    · exact .inr ⟨hno, hpublish⟩
  · rintro s t (rfl | hlt)
    · exact ⟨UInt64.le_refl _, fun _ => rfl⟩
    · exact ⟨UInt64.le_of_lt hlt, fun heq => absurd heq (UInt64.ne_of_lt hlt)⟩

end

/-- The last commit of the run publishes a new state although two of its changes fail. -/
theorem switchRun_published_generation :
    switch.committed.generation.toNat + switch.renewals switchRun < 2 ^ 64 ∧
      (switch.published switchRun).map Snapshot.generation = [0, 0, 0, 0, 1, 1, 1, 1, 1, 2] ∧
      (switch.published switchRun).Pairwise fun s t => s.generation = t.generation → s = t := by
  have room : switch.committed.generation.toNat + switch.renewals switchRun < 2 ^ 64 := by decide +kernel
  exact ⟨room, by decide +kernel, (published_generation room).2.2.imp And.right⟩

end Grammar

end SpeechGrammar
