import SpeechGrammar.Proofs.Paths

/-!
# What a search finds

A search and the paths of its graph. A search that succeeds has followed a path, and its stack is the one of that path
(**`path_of_walk`**). One that fails without having met a limit leaves no path: every path from where it started comes
to a loop entry that was being visited already, with the same words left (**`blocked_of_walk`**). A search without such
visits therefore finds a path if there is one.

At a loop entry the search keeps the visit in mind and looks on. It may miss the paths that come back to the entry with
the same words left, but such a path has a shorter one in it, which does not come back.
-/

namespace SpeechGrammar

/-- After a failure words, fragments and visits are as before, and a limit that was met stays met. -/
structure SearchState.Restored (s t : SearchState) : Prop where
  rest : t.rest = s.rest
  fragments : t.fragments = s.fragments
  visits : t.visits = s.visits
  exhausted : s.exhausted = true → t.exhausted = true

namespace SearchState.Restored

variable {s t u : SearchState}

theorem refl (s : SearchState) : s.Restored s := ⟨rfl, rfl, rfl, id⟩

theorem trans (h : s.Restored t) (h' : t.Restored u) : s.Restored u :=
  ⟨h'.rest.trans h.rest, h'.fragments.trans h.fragments, h'.visits.trans h.visits, h'.exhausted ∘ h.exhausted⟩

/-- A failure has put the words back already. -/
theorem with_rest (h : s.Restored t) : { t with rest := s.rest } = t := by
  rw [← h.rest]

end SearchState.Restored

namespace Search

/-! ## Following arcs -/

/-- Every failure restores the state. -/
def Restores (walk : Nat → SearchState → Bool × SearchState) : Prop :=
  ∀ id s t, walk id s = (false, t) → s.Restored t

section

variable {walk : Nat → SearchState → Bool × SearchState} (hw : Restores walk)

include hw

theorem follow_none_restored : ∀ {arcs : List Nat} {index : Nat} {s t : SearchState},
    follow walk arcs index s = (none, t) → s.Restored t
  | [], _, s, _, h => by cases h; exact .refl s
  | next :: arcs, index, s, t, h => by
    rw [follow] at h
    split at h
    · cases h
    · rename_i u hu
      have hr := hw _ _ _ hu
      simp only [hr.with_rest] at h
      split at h
      · cases h; exact hr
      · exact hr.trans (follow_none_restored h)

/-- If no arc leads to the final node and no limit is met, then every arc was tried from the same words and visits. -/
theorem follow_none_tried : ∀ {arcs : List Nat} {index : Nat} {s t : SearchState},
    follow walk arcs index s = (none, t) → t.exhausted = false → ∀ next ∈ arcs,
      ∃ u v, s.Restored u ∧ walk next u = (false, v) ∧ v.exhausted = false
  | next :: arcs, index, s, t, h, ht, id, hid => by
    rw [follow] at h
    split at h
    · cases h
    · rename_i u hu
      have hr := hw _ _ _ hu
      simp only [hr.with_rest] at h
      split at h
      · rename_i hex
        cases h
        rw [hex] at ht
        cases ht
      · rename_i hex
        rcases List.mem_cons.mp hid with rfl | hid
        · exact ⟨s, u, .refl s, hu, by simpa using hex⟩
        · obtain ⟨u', v, hu', hv, hex'⟩ := follow_none_tried h ht id hid
          exact ⟨u', v, hr.trans hu', hv, hex'⟩

/-- The first arc that leads to the final node. It and all arcs before it were tried from the same words, fragments and
visits, and no limit was met at those. -/
theorem follow_some : ∀ {arcs : List Nat} {index found : Nat} {s t : SearchState},
    follow walk arcs index s = (some found, t) →
      ∃ i next u, found = index + i ∧ arcs[i]? = some next ∧ s.Restored u ∧ walk next u = (true, t) ∧
        ∀ j earlier, j < i → arcs[j]? = some earlier →
          ∃ u v, s.Restored u ∧ walk earlier u = (false, v) ∧ v.exhausted = false
  | next :: arcs, index, found, s, t, h => by
    rw [follow] at h
    split at h
    · rename_i u hu
      cases h
      exact ⟨0, next, s, rfl, rfl, .refl s, hu, fun j _ hj => absurd hj (Nat.not_lt_zero j)⟩
    · rename_i u hu
      have hr := hw _ _ _ hu
      simp only [hr.with_rest] at h
      split at h
      · cases h
      · rename_i hex
        obtain ⟨i, next', u', rfl, hi, hu', ht, htried⟩ := follow_some h
        refine ⟨i + 1, next', u', by omega, hi, hr.trans hu', ht, fun j earlier hj hearlier => ?_⟩
        cases j with
        | zero =>
          cases hearlier
          exact ⟨s, u, .refl s, hu, by simpa using hex⟩
        | succ j =>
          obtain ⟨u'', v, hu'', hv, hex'⟩ := htried j earlier (Nat.lt_of_succ_lt_succ hj) hearlier
          exact ⟨u'', v, hr.trans hu'', hv, hex'⟩

end

/-! ## Visiting a node -/

section

variable {g : Graph} {o : SearchOptions} {walk : Nat → SearchState → Bool × SearchState} {id : Nat} {node : Node}
  {s t : SearchState}

theorem isFinal_iff : (g.isFinal id && s.rest.isEmpty) = true ↔ id = g.stop ∧ s.rest = [] := by
  rw [Bool.and_eq_true, Graph.isFinal, g.final_iff, List.isEmpty_iff]
  rfl

/-- A visit in one form for all kinds of nodes: take the words, follow an arc, and put the fragments together. -/
theorem visit_eq (hw : Restores walk) : visit g o walk id node s =
    if g.isFinal id && s.rest.isEmpty then (true, s.push (.mark id))
    else
      match node.kind.take o.wildcards s.rest with
      | none => (false, s)
      | some rest =>
        match follow walk node.arcs 0 { s with rest := rest } with
        | (some index, u) => (true, { u with fragments := node.kind.emit id index u.fragments })
        | (none, u) => (false, { u with rest := s.rest }) := by
  unfold visit
  split
  · rfl
  · cases node with
    | mk kind arcs loopEntry final =>
      cases kind with
      | token text words => rfl
      | _ =>
        simp only [NodeKind.take]
        cases hf : follow walk arcs 0 s with
        | mk found u =>
          cases found with
          | some index => rfl
          | none => simp only [(follow_none_restored hw hf).with_rest]

/-- How a visit succeeds: at the end, or along an arc, after those before it were tried. -/
theorem visit_true (hw : Restores walk) (h : visit g o walk id node s = (true, t)) :
    (id = g.stop ∧ s.rest = [] ∧ t = s.push (.mark id)) ∨
      ¬(id = g.stop ∧ s.rest = []) ∧ ∃ rest index next u v, node.kind.take o.wildcards s.rest = some rest ∧
        node.arcs[index]? = some next ∧ SearchState.Restored { s with rest := rest } u ∧ walk next u = (true, v) ∧
        t = { v with fragments := node.kind.emit id index v.fragments } ∧
        ∀ j earlier, j < index → node.arcs[j]? = some earlier →
          ∃ u v, SearchState.Restored { s with rest := rest } u ∧ walk earlier u = (false, v) ∧ v.exhausted = false := by
  rw [visit_eq hw] at h
  split at h
  · rename_i hfin
    cases h
    exact .inl ⟨(isFinal_iff.mp hfin).1, (isFinal_iff.mp hfin).2, rfl⟩
  · rename_i hfin
    split at h
    · cases h
    · rename_i rest htake
      split at h
      · rename_i index v hf
        cases h
        obtain ⟨i, next, u, rfl, hi, hu, hv, htried⟩ := follow_some hw hf
        rw [Nat.zero_add]
        exact .inr ⟨isFinal_iff.not.mp hfin, rest, i, next, u, v, htake, hi, hu, hv, rfl, htried⟩
      · cases h

/-- What a failed visit leaves. -/
theorem visit_false_restored (hw : Restores walk) (h : visit g o walk id node s = (false, t)) : s.Restored t := by
  rw [visit_eq hw] at h
  split at h
  · cases h
  · split at h
    · cases h
      exact .refl s
    · split at h
      · cases h
      · rename_i u hf
        cases h
        have hr := follow_none_restored hw hf
        exact ⟨rfl, hr.fragments, hr.visits, hr.exhausted⟩

/-- A visit that fails without having met a limit has tried every arc, and it is not at the end. -/
theorem visit_false_tried (hw : Restores walk) (h : visit g o walk id node s = (false, t))
    (ht : t.exhausted = false) :
    ¬(id = g.stop ∧ s.rest = []) ∧ ∀ rest next, node.kind.take o.wildcards s.rest = some rest → next ∈ node.arcs →
      ∃ u v, SearchState.Restored { s with rest := rest } u ∧ walk next u = (false, v) ∧ v.exhausted = false := by
  rw [visit_eq hw] at h
  split at h
  · cases h
  · rename_i hfin
    refine ⟨fun hend => hfin (isFinal_iff.mpr hend), fun rest next htake hnext => ?_⟩
    rw [htake] at h
    dsimp only at h
    split at h
    · cases h
    · rename_i u hf
      cases h
      exact follow_none_tried hw hf ht next hnext

end

/-! ## Walking on -/

variable {g : Graph} {o : SearchOptions}

theorem enter_restores {walk : Nat → SearchState → Bool × SearchState} (hw : Restores walk) :
    Restores (enter g o walk) := by
  intro id s t h
  unfold enter at h
  split at h
  · cases h
    exact .refl s
  · split at h
    · dsimp only at h
      split at h
      · cases h
        exact .refl s
      · generalize hv : visit g o walk id _ _ = r at h
        obtain ⟨found, u⟩ := r
        cases h
        have hr := visit_false_restored hw hv
        refine ⟨hr.rest, hr.fragments, ?_, hr.exhausted⟩
        rw [hr.visits, List.erase_cons_head]
    · exact visit_false_restored hw h

/-- **A failed walk restores the state.** -/
theorem walk_restores : ∀ depth, Restores (walk g o depth)
  | 0 => fun id s t h => by
    cases h
    exact ⟨rfl, rfl, rfl, fun _ => rfl⟩
  | depth + 1 => fun id s t h => by
    rw [walk] at h
    split at h
    · cases h
      exact ⟨rfl, rfl, rfl, fun _ => rfl⟩
    · have hr := enter_restores (walk_restores depth) _ _ _ h
      exact ⟨hr.rest, hr.fragments, hr.visits, hr.exhausted⟩

/-- The visits of loop entries once the node has been entered as well, which it may not be if it is a loop entry that is
being visited already. -/
inductive Entered (node : Node) (here : Nat × Nat) (visits : List (Nat × Nat)) : List (Nat × Nat) → Prop
  | loop : node.loopEntry = true → here ∉ visits → Entered node here visits (here :: visits)
  | pass : node.loopEntry = false → Entered node here visits visits

/-- A node that is entered with success has been visited with success, from the same words and fragments. -/
theorem enter_true {walk : Nat → SearchState → Bool × SearchState} {id : Nat} {s t : SearchState}
    (h : enter g o walk id s = (true, t)) :
    ∃ node u v, g.nodes[id]? = some node ∧ visit g o walk id node u = (true, v) ∧ u.rest = s.rest ∧
      u.fragments = s.fragments ∧ t.fragments = v.fragments ∧ Entered node (id, s.rest.length) s.visits u.visits := by
  unfold enter at h
  split at h
  · cases h
  · rename_i node hn
    split at h
    · rename_i hl
      dsimp only at h
      split at h
      · cases h
      · rename_i hnew
        generalize hv : visit g o walk id node _ = r at h
        obtain ⟨found, u⟩ := r
        cases h
        exact ⟨node, _, u, hn, hv, rfl, rfl, rfl, .loop hl fun hmem => hnew (List.contains_iff_mem.mpr hmem)⟩
    · rename_i hl
      exact ⟨node, s, t, hn, h, rfl, rfl, rfl, .pass ((Bool.not_eq_true _).mp hl)⟩

/-- **A search that succeeds has followed a path.** -/
theorem path_of_walk : ∀ {depth id : Nat} {s t : SearchState}, walk g o depth id s = (true, t) → s.fragments = [] →
    ∃ arcs visits, g.Path o.wildcards arcs visits id s.rest t.fragments
  | 0, _, _, _, h, _ => by cases h
  | depth + 1, id, s, t, h, hs => by
    rw [walk] at h
    split at h
    · cases h
    · obtain ⟨node, u, v, hn, hv, hrest, hu, ht, -⟩ := enter_true h
      rw [ht]
      dsimp only at hrest hu
      rcases visit_true (walk_restores depth) hv with ⟨rfl, hend, rfl⟩ |
        ⟨-, rest, index, next, u', v', htake, hnext, hr, hw, rfl, -⟩
      · rw [← hrest, hend]
        have hp : g.Path o.wildcards _ _ g.stop [] _ := .stop hn
        simpa [SearchState.push, hu, hs] using (⟨_, _, hp⟩ : ∃ arcs visits, g.Path o.wildcards arcs visits _ _ _)
      · obtain ⟨arcs, visits, hp⟩ := path_of_walk hw (hr.fragments.trans (hu.trans hs))
        rw [hr.rest] at hp
        rw [hrest] at htake
        exact ⟨_, _, .step hn htake hnext hp⟩

/-! ## Failure -/

/-- Every path from the node that takes the words comes to one of the visits. -/
def Blocked (g : Graph) (wildcards : Bool) (visits : List (Nat × Nat)) (id : Nat) (spoken : List String) : Prop :=
  ∀ arcs trace fs, g.Path wildcards arcs trace id spoken fs → ∃ v ∈ trace, v ∈ visits

/-- If the paths go on to one of the visits or come back, then they come to one of the visits. -/
theorem Blocked.of_return {wildcards : Bool} {visits : List (Nat × Nat)} {id : Nat} {spoken : List String}
    (h : ∀ arcs trace fs, g.Path wildcards arcs trace id spoken fs →
      ∃ v ∈ trace.tail, v ∈ (id, spoken.length) :: visits) : Blocked g wildcards visits id spoken := by
  intro arcs trace fs hp
  -- a path that comes back has a shorter path in it
  induction hn : trace.length using Nat.strongRecOn generalizing arcs trace fs with
  | _ n ih =>
    subst hn
    obtain ⟨v, hv, hmem⟩ := h arcs trace fs hp
    rcases List.mem_cons.mp hmem with rfl | hmem
    · cases hp with
      | stop _ => cases hv
      | step _ ht _ hp =>
        obtain ⟨arcs', trace', rest', fs', hp', hsuf, hlen, hsub⟩ := hp.of_mem_visits hv
        have hrest : rest' = spoken := (hsuf.trans (NodeKind.suffix_of_take ht)).eq_of_length hlen
        subst hrest
        obtain ⟨v, hv', hmem'⟩ := ih trace'.length (Nat.lt_succ_of_le hsub.length_le) arcs' trace' fs' hp' rfl
        exact ⟨v, List.mem_cons_of_mem _ (hsub.subset hv'), hmem'⟩
    · exact ⟨v, List.mem_of_mem_tail hv, hmem⟩

/-- A failed visit leaves no path but through the visits. -/
theorem visit_blocked {depth id : Nat} {node : Node} {s t : SearchState}
    (ih : ∀ {id : Nat} {s t : SearchState}, walk g o depth id s = (false, t) → t.exhausted = false →
      Blocked g o.wildcards s.visits id s.rest)
    (hn : g.nodes[id]? = some node) (h : visit g o (walk g o depth) id node s = (false, t)) (ht : t.exhausted = false)
    {arcs : List Nat} {trace : List (Nat × Nat)} {fs : List Fragment}
    (hp : g.Path o.wildcards arcs trace id s.rest fs) : ∃ v ∈ trace.tail, v ∈ s.visits := by
  obtain ⟨hend, htried⟩ := visit_false_tried (walk_restores depth) h ht
  generalize hrest : s.rest = spoken at hp hend htried
  cases hp with
  | stop _ => exact absurd ⟨rfl, rfl⟩ hend
  | step hn' htake hnext hp =>
    rw [hn] at hn'
    cases hn'
    obtain ⟨u, v, hu, hw, hex⟩ := htried _ _ htake (List.mem_of_getElem? hnext)
    have hb := ih hw hex
    rw [hu.rest, hu.visits] at hb
    exact hb _ _ _ hp

/-- **A search that fails without having met a limit leaves no path** but through the loop entries that it was visiting
before. -/
theorem blocked_of_walk : ∀ {depth id : Nat} {s t : SearchState}, walk g o depth id s = (false, t) →
    t.exhausted = false → Blocked g o.wildcards s.visits id s.rest
  | 0, _, _, _, h, ht => by cases h; cases ht
  | depth + 1, id, s, t, h, ht => by
    rw [walk] at h
    split at h
    · cases h
      cases ht
    · unfold enter at h
      split at h
      · rename_i hn
        intro _ _ _ hp
        obtain ⟨node, hn'⟩ := hp.exists_node
        rw [hn] at hn'
        cases hn'
      · rename_i node hn
        split at h
        · dsimp only at h
          split at h
          · rename_i hmem
            exact fun _ _ _ hp => ⟨_, hp.head_mem_visits, by simpa using hmem⟩
          · generalize hv : visit g o (walk g o depth) id node _ = r at h
            obtain ⟨found, u⟩ := r
            cases h
            exact .of_return fun _ _ _ hp => visit_blocked blocked_of_walk hn hv ht hp
        · intro arcs trace fs hp
          obtain ⟨v, hv, hmem⟩ := visit_blocked blocked_of_walk hn h ht hp
          exact ⟨v, List.mem_of_mem_tail hv, hmem⟩

end Search

end SpeechGrammar
