import SpeechGrammar.Proofs.SearchLimits

/-!
# The calls of a search

A search calls itself at the nodes that arcs lead to. `Graph.Calls` has all these calls, each with the way to it: the
nodes that are being visited, with the numbers of the arcs that are tried there.

The state goes through all calls, one after the other, so each of them could spoil it for the next. But a call that
fails leaves it as it found it, and one that succeeds is the last one, since no arc is tried any more at a node on its
way (**`Graph.calls_leave_no_trace`**). The depth is no part of the state: it goes down along a way, and what is left of
it at a call depends on the length of the way alone.
-/

namespace SpeechGrammar

/-! ## What every search keeps -/

/-- The visits are as before, no step is taken back, and a limit that was met stays met. -/
structure SearchState.Kept (s t : SearchState) : Prop where
  visits : t.visits = s.visits
  steps : s.steps ≤ t.steps
  exhausted : s.exhausted = true → t.exhausted = true

namespace SearchState.Kept

variable {s t u : SearchState}

theorem refl (s : SearchState) : s.Kept s := ⟨rfl, Nat.le_refl _, id⟩

theorem trans (h : s.Kept t) (h' : t.Kept u) : s.Kept u :=
  ⟨h'.visits.trans h.visits, Nat.le_trans h.steps h'.steps, h'.exhausted ∘ h.exhausted⟩

end SearchState.Kept

namespace Search

/-- Whatever the outcome is, the search keeps what is to be kept. -/
def Keeps (walk : Nat → SearchState → Bool × SearchState) : Prop :=
  ∀ id s found t, walk id s = (found, t) → s.Kept t

section

variable {walk : Nat → SearchState → Bool × SearchState} {g : Graph} {o : SearchOptions}

theorem follow_kept (hw : Keeps walk) : ∀ {arcs : List Nat} {index : Nat} {s t : SearchState} {taken : Option Nat},
    follow walk arcs index s = (taken, t) → s.Kept t
  | [], _, s, _, _, h => by cases h; exact .refl s
  | next :: arcs, index, s, t, taken, h => by
    rw [follow] at h
    split at h
    · rename_i u hu
      cases h
      exact hw _ _ _ _ hu
    · rename_i u hu
      have hkept := hw _ _ _ _ hu
      have hback : s.Kept { u with rest := s.rest } := ⟨hkept.visits, hkept.steps, hkept.exhausted⟩
      dsimp only at h
      split at h
      · cases h
        exact hback
      · exact hback.trans (follow_kept hw h)

theorem visit_kept (hr : Restores walk) (hw : Keeps walk) {id : Nat} {node : Node} {s t : SearchState} {found : Bool}
    (h : visit g o walk id node s = (found, t)) : s.Kept t := by
  rw [visit_eq hr] at h
  split at h
  · cases h
    exact ⟨rfl, Nat.le_refl _, fun hs => hs⟩
  · split at h
    · cases h
      exact .refl s
    · split at h <;> rename_i hf <;> cases h <;> have hkept := follow_kept hw hf <;>
        exact ⟨hkept.visits, hkept.steps, hkept.exhausted⟩

theorem enter_keeps (hr : Restores walk) (hw : Keeps walk) : Keeps (enter g o walk) := by
  intro id s found t h
  unfold enter at h
  split at h
  · cases h
    exact .refl s
  · split at h
    · dsimp only at h
      split at h
      · cases h
        exact .refl s
      · generalize hv : visit g o walk id _ _ = r at h
        obtain ⟨found', u⟩ := r
        cases h
        have hkept := visit_kept hr hw hv
        refine ⟨?_, hkept.steps, hkept.exhausted⟩
        show u.visits.erase _ = s.visits
        rw [hkept.visits, List.erase_cons_head]
    · exact visit_kept hr hw h

end

/-- **A search keeps the visits, and it never goes back in its steps or from a limit.** -/
theorem walk_keeps (g : Graph) (o : SearchOptions) : ∀ depth, Keeps (walk g o depth)
  | 0 => fun id s found t h => by
    cases h
    exact ⟨rfl, Nat.le_refl _, fun _ => rfl⟩
  | depth + 1 => fun id s found t h => by
    rw [walk] at h
    split at h
    · cases h
      exact ⟨rfl, Nat.le_refl _, fun _ => rfl⟩
    · have hkept := enter_keeps (walk_restores depth) (walk_keeps g o depth) _ _ _ _ h
      exact ⟨hkept.visits, Nat.le_of_succ_le hkept.steps, hkept.exhausted⟩

/-! ## Setting out along arcs -/

/-- A call at the node `id` in the state `s` follows the arcs of the node from the state `t`: no limit is met, a loop
that took nothing is not entered again, the search is not at its end, and the words of the node are taken. -/
structure SetsOut (g : Graph) (o : SearchOptions) (id : Nat) (s : SearchState) (node : Node) (t : SearchState) :
    Prop where
  present : g.nodes[id]? = some node
  allowed : outOfSteps o s = false
  entered : Entered node (id, s.rest.length) s.visits t.visits
  going : ¬(id = g.stop ∧ s.rest = [])
  taken : node.kind.take o.wildcards s.rest = some t.rest
  fragments : t.fragments = s.fragments
  steps : t.steps = s.steps + 1
  exhausted : t.exhausted = s.exhausted

section

variable {g : Graph} {o : SearchOptions} {id depth : Nat} {s t u : SearchState} {node : Node}

/-- There is one way to set out. -/
theorem SetsOut.unique {node' : Node} {t' : SearchState} (h : SetsOut g o id s node t) (h' : SetsOut g o id s node' t') :
    node = node' ∧ t = t' := by
  obtain rfl := Option.some.inj (h.present.symm.trans h'.present)
  refine ⟨rfl, ?_⟩
  have hrest : t.rest = t'.rest := Option.some.inj (h.taken.symm.trans h'.taken)
  have hvisits : t.visits = t'.visits := by
    have he := h.entered
    have he' := h'.entered
    generalize t.visits = vs at he
    generalize t'.visits = vs' at he'
    cases he with
    | loop hl _ => cases he' with
      | loop _ _ => rfl
      | pass hl' => rw [hl] at hl'; cases hl'
    | pass hl => cases he' with
      | loop hl' _ => rw [hl] at hl'; cases hl'
      | pass _ => rfl
  have hfragments := h.fragments.trans h'.fragments.symm
  have hsteps := h.steps.trans h'.steps.symm
  have hexhausted := h.exhausted.trans h'.exhausted.symm
  cases t
  cases t'
  simp_all

/-- What a call does that sets out. -/
theorem walk_of_setsOut (h : SetsOut g o id s node t) (depth : Nat) :
    walk g o (depth + 1) id s =
      match follow (walk g o depth) node.arcs 0 t with
      | (some index, u) =>
        (true, { u with fragments := node.kind.emit id index u.fragments, visits := s.visits })
      | (none, u) => (false, { u with rest := s.rest, visits := s.visits }) := by
  obtain ⟨hn, hallowed, hentered, hgoing, htake, hfragments, hsteps, hexhausted⟩ := h
  obtain ⟨rest, fragments, steps, exhausted, visits⟩ := t
  dsimp only at hentered htake hfragments hsteps hexhausted
  subst hfragments hsteps hexhausted
  cases hf : follow (walk g o depth) node.arcs 0 ⟨rest, s.fragments, s.steps + 1, s.exhausted, visits⟩ with
  | mk taken u =>
    have hvisits : u.visits = visits := (follow_kept (walk_keeps g o depth) hf).visits
    rw [walk, hallowed]
    simp only [Bool.false_eq_true, ↓reduceIte, enter, hn]
    cases hentered with
    | loop hl hnew =>
      have hnot : s.visits.contains (id, s.rest.length) = false := by simpa using hnew
      simp only [hl, hnot, ↓reduceIte, Bool.false_eq_true]
      rw [visit_eq (walk_restores depth), if_neg (isFinal_iff.not.mpr hgoing)]
      simp only [htake, hf]
      cases taken <;> simp [hvisits]
    | pass hl =>
      simp only [hl, Bool.false_eq_true, ↓reduceIte]
      rw [visit_eq (walk_restores depth), if_neg (isFinal_iff.not.mpr hgoing)]
      simp only [htake, hf]
      cases taken <;> simp [← hvisits]

/-- A node that is entered with success is the final one, or the call sets out from it. -/
theorem setsOut_of_visit {visits : List (Nat × Nat)} (hn : g.nodes[id]? = some node) (hallowed : outOfSteps o s = false)
    (hentered : Entered node (id, s.rest.length) s.visits visits)
    (hv : visit g o (walk g o depth) id node { s with steps := s.steps + 1, visits := visits } = (true, t)) :
    (id = g.stop ∧ s.rest = [] ∧ t.rest = []) ∨ ∃ u, SetsOut g o id s node u := by
  obtain ⟨hid, hrest, rfl⟩ | ⟨hgoing, rest, _, _, _, _, htake, -⟩ := visit_true (walk_restores depth) hv
  · exact .inl ⟨hid, hrest, hrest⟩
  · exact .inr ⟨⟨rest, s.fragments, s.steps + 1, s.exhausted, visits⟩, hn, hallowed, hentered, hgoing, htake, rfl, rfl, rfl⟩

/-- A call that succeeds is at the end, or it sets out and comes to the end along an arc. -/
theorem walk_found (h : walk g o (depth + 1) id s = (true, t)) :
    (id = g.stop ∧ s.rest = [] ∧ t.rest = []) ∨
      ∃ node u index v, SetsOut g o id s node u ∧ follow (walk g o depth) node.arcs 0 u = (some index, v) ∧
        t = { v with fragments := node.kind.emit id index v.fragments, visits := s.visits } := by
  by_cases hset : ∃ node u, SetsOut g o id s node u
  · obtain ⟨node, u, hset⟩ := hset
    rw [walk_of_setsOut hset] at h
    split at h
    · rename_i index v hf
      cases h
      exact .inr ⟨node, u, index, v, hset, hf, rfl⟩
    · cases h
  · left
    have hend : ∀ {node : Node} {u : SearchState}, (id = g.stop ∧ s.rest = [] ∧ u.rest = []) ∨
        (∃ v, SetsOut g o id s node v) → id = g.stop ∧ s.rest = [] ∧ u.rest = [] :=
      fun h => h.resolve_right fun ⟨v, hv⟩ => hset ⟨_, v, hv⟩
    rw [walk] at h
    split at h
    · cases h
    · rename_i hallowed
      rw [Bool.not_eq_true] at hallowed
      unfold enter at h
      split at h
      · cases h
      · rename_i node hn
        split at h
        · rename_i hl
          dsimp only at h
          split at h
          · cases h
          · rename_i hnew
            generalize hv : visit g o (walk g o depth) id node _ = r at h
            obtain ⟨found, u⟩ := r
            cases h
            have hentered : Entered node (id, s.rest.length) s.visits _ :=
              .loop hl fun hmem => hnew (List.contains_iff_mem.mpr hmem)
            exact hend (u := u) (setsOut_of_visit hn hallowed hentered hv)
        · rename_i hl
          exact hend (setsOut_of_visit hn hallowed (.pass ((Bool.not_eq_true _).mp hl)) h)

end

/-! ## Trying an arc -/

section

variable {walk : Nat → SearchState → Bool × SearchState} {arcs : List Nat} {index next : Nat} {t u v : SearchState}

/-- When the arcs are followed from the state `t`, the one with the number `index` is tried in the state `u`: those before
it fail, and no limit is met at them. -/
structure Tries (walk : Nat → SearchState → Bool × SearchState) (arcs : List Nat) (t : SearchState)
    (index next : Nat) (u : SearchState) : Prop where
  arc : arcs[index]? = some next
  failed : follow walk (arcs.take index) 0 t = (none, u)
  free : 0 < index → u.exhausted = false

/-- Arcs that fail make room for the others, unless a limit was met. -/
theorem follow_append : ∀ {arcs : List Nat} {index : Nat} {t : SearchState},
    follow walk arcs index t = (none, u) → (arcs ≠ [] → u.exhausted = false) → ∀ later,
    follow walk (arcs ++ later) index t = follow walk later (index + arcs.length) u
  | [], _, _, h, _, _ => by cases h; rfl
  | next :: arcs, index, t, h, hfree, later => by
    have hu := hfree (List.cons_ne_nil next arcs)
    rw [List.cons_append, follow]
    rw [follow] at h
    split at h
    · cases h
    · rename_i v hv
      dsimp only at h
      split at h
      · rename_i hmet
        cases h
        rw [hmet] at hu
        cases hu
      · rename_i hfree'
        dsimp only
        rw [if_neg hfree', follow_append h (fun _ => hu), List.length_cons, Nat.add_assoc, Nat.add_comm 1]

/-- The first arcs, up to the one that is tried. -/
theorem Tries.take {count : Nat} (h : Tries walk arcs t index next u) (hcount : index < count) :
    Tries walk (arcs.take count) t index next u where
  arc := (List.getElem?_take_of_lt hcount).trans h.arc
  failed := by rw [List.take_take, Nat.min_eq_left (Nat.le_of_lt hcount)]; exact h.failed
  free := h.free

/-- An arc that leads to the final node is the one that is taken. -/
theorem Tries.follow_eq (h : Tries walk arcs t index next u) (hv : walk next u = (true, v)) :
    follow walk arcs 0 t = (some index, v) := by
  obtain ⟨hlt, harc⟩ := List.getElem?_eq_some_iff.mp h.arc
  have hsplit : arcs = arcs.take index ++ next :: arcs.drop (index + 1) := by
    rw [← harc, ← List.drop_eq_getElem_cons hlt, List.take_append_drop]
  have hfree : arcs.take index ≠ [] → u.exhausted = false := fun hne =>
    h.free (Nat.pos_of_ne_zero fun hzero => hne (by rw [hzero, List.take_zero]))
  rw [hsplit, follow_append h.failed hfree, follow, hv, List.length_take, Nat.min_eq_left (Nat.le_of_lt hlt)]
  simp

/-- No arc is tried after one that leads to the final node. -/
theorem Tries.not_later {index' next' : Nat} {u' : SearchState} (h : Tries walk arcs t index next u)
    (hv : walk next u = (true, v)) (hlater : index < index') : ¬Tries walk arcs t index' next' u' := by
  intro h'
  have hsome := (h.take hlater).follow_eq hv
  rw [h'.failed] at hsome
  cases hsome

end

end Search

namespace Graph

open Search (SetsOut Tries walk)

/-- The calls of a search for the spoken words: the way to it, how many nodes it may enter, the node where it starts and
the state it finds. The way has the nodes that are being visited, each with the number of the arc that is tried there. -/
inductive Calls (g : Graph) (spoken : List String) (o : SearchOptions) :
    (way : List (Nat × Nat)) → (depth id : Nat) → SearchState → Prop
  | start : Calls g spoken o [] o.maxDepth g.start (.initial (spoken.map Text.lower))
  | next {way depth id s node t index next u} :
      Calls g spoken o way (depth + 1) id s → SetsOut g o id s node t →
      Tries (walk g o depth) node.arcs t index next u →
      Calls g spoken o (way ++ [(id, index)]) depth next u

variable {g : Graph} {spoken : List String} {o : SearchOptions} {way : List (Nat × Nat)} {depth id : Nat}
  {s t : SearchState}

/-- A node may be entered for each one that is not on the way yet. -/
theorem Calls.length_add (h : g.Calls spoken o way depth id s) : way.length + depth = o.maxDepth := by
  induction h with
  | start => exact Nat.zero_add _
  | next _ _ _ ih =>
    rw [List.length_append, List.length_singleton, Nat.add_assoc, Nat.add_comm 1]
    exact ih

/-- No limit has been met before a call. -/
theorem Calls.exhausted (h : g.Calls spoken o way depth id s) : s.exhausted = false := by
  induction h with
  | start => rfl
  | @next _ _ _ _ _ _ index _ _ _ hset htries ih =>
    cases index with
    | zero =>
      cases htries.failed
      exact hset.exhausted.trans ih
    | succ index => exact htries.free (Nat.succ_pos index)

/-- The last arc on the way was tried at a node whose call had set out. -/
theorem Calls.last {id' index : Nat} (h : g.Calls spoken o (way ++ [(id', index)]) depth id s) :
    ∃ s' node t, g.Calls spoken o way (depth + 1) id' s' ∧ SetsOut g o id' s' node t ∧
      Tries (walk g o depth) node.arcs t index id s := by
  generalize hway : way ++ [(id', index)] = way' at h
  cases h with
  | start => simp at hway
  | next hcall hset htries =>
    obtain ⟨rfl, hstep⟩ := List.append_inj' hway rfl
    cases hstep
    exact ⟨_, _, _, hcall, hset, htries⟩

/-- There is one call for each way. -/
theorem Calls.unique (h : g.Calls spoken o way depth id s) {depth' id' : Nat} {s' : SearchState}
    (h' : g.Calls spoken o way depth' id' s') : depth = depth' ∧ id = id' ∧ s = s' := by
  induction h generalizing depth' id' s' with
  | start =>
    generalize hway : ([] : List (Nat × Nat)) = way' at h'
    cases h' with
    | start => exact ⟨rfl, rfl, rfl⟩
    | next _ _ _ => simp at hway
  | next hcall hset htries ih =>
    obtain ⟨s'', node, t, hcall', hset', htries'⟩ := h'.last
    obtain ⟨hdepth, -, rfl⟩ := ih hcall'
    obtain rfl := Nat.succ.inj hdepth
    obtain ⟨rfl, rfl⟩ := hset.unique hset'
    exact ⟨rfl, Option.some.inj (htries.arc.symm.trans htries'.arc),
      congrArg Prod.snd (htries.failed.symm.trans htries'.failed)⟩

/-- A call succeeds if one along an arc of its node does. -/
theorem found_of_tries {node : Node} {index next : Nat} {u : SearchState} (hset : SetsOut g o id s node t)
    (htries : Tries (walk g o depth) node.arcs t index next u) (h : (walk g o depth next u).1 = true) :
    (walk g o (depth + 1) id s).1 = true := by
  rw [Search.walk_of_setsOut hset, htries.follow_eq (Prod.ext h rfl)]

/-- The calls on the way to a call that succeeds succeed as well. -/
theorem Calls.of_append {later : List (Nat × Nat)} (h : g.Calls spoken o (way ++ later) depth id s) :
    ∃ depth' id' s', g.Calls spoken o way depth' id' s' ∧
      ((walk g o depth id s).1 = true → (walk g o depth' id' s').1 = true) := by
  induction later using List.reverseRecOn generalizing depth id s with
  | nil => exact ⟨depth, id, s, by rwa [List.append_nil] at h, fun hs => hs⟩
  | append_singleton later step ih =>
    rw [← List.append_assoc] at h
    obtain ⟨s', node, t, hcall, hset, htries⟩ := h.last
    obtain ⟨depth', id', s'', hcall', hfound⟩ := ih hcall
    exact ⟨depth', id', s'', hcall', fun hs => hfound (found_of_tries hset htries hs)⟩

/-- Along no later arc of a node on the way to a call that succeeds is there a call. -/
theorem Calls.not_later {before later more : List (Nat × Nat)} {id' i j : Nat}
    (h : g.Calls spoken o (before ++ (id', i) :: later) depth id s) (hfound : (walk g o depth id s).1 = true)
    (hij : i < j) {id'' depth' last : Nat} {s' : SearchState} :
    ¬g.Calls spoken o (before ++ (id'', j) :: more) depth' last s' := by
  intro h'
  rw [List.append_cons] at h h'
  obtain ⟨_, _, _, hcall, hsucceeds⟩ := h.of_append
  obtain ⟨_, _, _, hcall', -⟩ := h'.of_append
  obtain ⟨_, _, _, hparent, hset, htries⟩ := hcall.last
  obtain ⟨_, _, _, hparent', hset', htries'⟩ := hcall'.last
  obtain ⟨hdepth, rfl, rfl⟩ := hparent.unique hparent'
  obtain rfl := Nat.succ.inj hdepth
  obtain ⟨rfl, rfl⟩ := hset.unique hset'
  exact htries.not_later (Prod.ext (hsucceeds hfound) rfl) hij htries'

end Graph

namespace Search

variable {g : Graph} {o : SearchOptions}

/-- A search that succeeds has taken all words. -/
theorem walk_found_end : ∀ {depth id : Nat} {s t : SearchState}, walk g o depth id s = (true, t) → t.rest = []
  | 0, _, _, _, h => by cases h
  | depth + 1, _, _, _, h => by
    rcases walk_found h with ⟨-, -, hrest⟩ | ⟨node, u, index, v, -, hf, rfl⟩
    · exact hrest
    · obtain ⟨_, _, _, -, -, -, hw, -⟩ := follow_some (walk_restores depth) hf
      have hrest := walk_found_end hw
      exact hrest

end Search

namespace Graph

open Search (SetsOut Tries walk)

variable {g : Graph} {spoken : List String} {o : SearchOptions} {way : List (Nat × Nat)} {depth id : Nat}
  {s : SearchState}

/-- **A failed call leaves no trace, and a call that succeeds is the last one.** At each call of a search no limit has been
met, and it may enter a node for each one that is not on the way. If the call fails, the words that are left, the
fragments and the visits are as before. If it succeeds, all words are taken, the visits are as before, no limit is met,
and no later arc is tried at any node on the way. In both cases steps are only counted up, and a limit that was met
stays met. -/
theorem calls_leave_no_trace (h : g.Calls spoken o way depth id s) :
    way.length + depth = o.maxDepth ∧ s.exhausted = false ∧
    ∀ found t, walk g o depth id s = (found, t) →
      t.visits = s.visits ∧ s.steps ≤ t.steps ∧ (s.exhausted = true → t.exhausted = true) ∧
      (found = false → t.rest = s.rest ∧ t.fragments = s.fragments) ∧
      (found = true → t.rest = [] ∧ t.exhausted = false ∧
        ∀ before later id' i, way = before ++ (id', i) :: later → ∀ j, i < j → ∀ id'' more depth' last s',
          ¬g.Calls spoken o (before ++ (id'', j) :: more) depth' last s') := by
  have hfree := h.exhausted
  refine ⟨h.length_add, hfree, fun found t hw => ?_⟩
  have hkept := Search.walk_keeps g o depth _ _ _ _ hw
  refine ⟨hkept.visits, hkept.steps, hkept.exhausted, ?_, ?_⟩
  · rintro rfl
    have hrestored := Search.walk_restores depth _ _ _ hw
    exact ⟨hrestored.rest, hrestored.fragments⟩
  · rintro rfl
    obtain ⟨hfalse, -⟩ | ⟨hex, -⟩ := Search.walk_cases depth _ _ _ _ hw hfree
    · cases hfalse
    · refine ⟨Search.walk_found_end hw, hex, ?_⟩
      rintro before later id' i rfl j hij id'' more depth' last s'
      exact h.not_later (congrArg Prod.fst hw) hij

/-- A choice between three words. -/
def colours : Graph := ruleGraph "colour" (.alternatives [.token "red", .token "green", .token "blue"])

/-- The call along the first arc of the choice fails, the one along the second arc succeeds, and the third arc is not
tried. -/
theorem colours_calls_leave_no_trace :
    ∃ s t, colours.Calls ["Green"] default [(0, 0), (2, 0)] 998 4 s ∧
      colours.Calls ["Green"] default [(0, 0), (2, 1)] 998 5 t ∧
      (walk colours default 998 4 s).1 = false ∧ (walk colours default 998 4 s).2.rest = s.rest ∧
      (walk colours default 998 5 t).1 = true ∧ (walk colours default 998 5 t).2.rest = [] ∧
      ∀ more depth last u, ¬colours.Calls ["Green"] default ([(0, 0)] ++ (2, 2) :: more) depth last u := by
  have hfirst {P : Prop} : 0 < 0 → P := fun h => absurd h (Nat.lt_irrefl 0)
  have hstart : colours.Calls ["Green"] default [] 1000 0 ⟨["green"], [], 0, false, []⟩ := by
    have hwords : SearchState.initial (["Green"].map Text.lower) = ⟨["green"], [], 0, false, []⟩ := by cbv
    exact hwords ▸ .start
  have hchoice : colours.Calls ["Green"] default [(0, 0)] 999 2 ⟨["green"], [], 1, false, []⟩ :=
    .next (t := ⟨["green"], [], 1, false, []⟩) hstart ⟨rfl, rfl, .pass rfl, by decide, rfl, rfl, rfl, rfl⟩
      ⟨rfl, rfl, hfirst⟩
  have hset : SetsOut colours default 2 ⟨["green"], [], 1, false, []⟩
      ⟨.startAlternatives 3, [4, 5, 6], false, false⟩ ⟨["green"], [], 2, false, []⟩ :=
    ⟨rfl, rfl, .pass rfl, by decide, rfl, rfl, rfl, rfl⟩
  have hred : colours.Calls ["Green"] default [(0, 0), (2, 0)] 998 4 ⟨["green"], [], 2, false, []⟩ :=
    .next hchoice hset ⟨rfl, rfl, hfirst⟩
  have hgreen : colours.Calls ["Green"] default [(0, 0), (2, 1)] 998 5 ⟨["green"], [], 3, false, []⟩ :=
    .next hchoice hset ⟨rfl, by cbv, fun _ => rfl⟩
  have hfails : (walk colours default 998 4 ⟨["green"], [], 2, false, []⟩).1 = false := by cbv
  have hsucceeds : (walk colours default 998 5 ⟨["green"], [], 3, false, []⟩).1 = true := by cbv
  obtain ⟨-, -, hleft⟩ := calls_leave_no_trace hred
  obtain ⟨-, -, hright⟩ := calls_leave_no_trace hgreen
  obtain ⟨-, -, -, hback, -⟩ := hleft _ _ rfl
  obtain ⟨-, -, -, -, hlast⟩ := hright _ _ rfl
  exact ⟨_, _, hred, hgreen, hfails, (hback hfails).1, hsucceeds, (hlast hsucceeds).1,
    fun more depth last u => (hlast hsucceeds).2.2 [(0, 0)] [] 2 1 rfl 2 (by decide) 2 more depth last u⟩

end Graph

end SpeechGrammar
