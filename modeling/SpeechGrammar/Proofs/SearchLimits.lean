import SpeechGrammar.Proofs.Recognition

/-!
# Searches with and without limits

A search that has no limits is told by the relation `Search.Explores`: from a node and a state to whether the final node
is reached, to the state in which the search ends, and to the height, which is the number of nodes on its longest path.
There is one outcome at most (**`Explores.unique`**). A search with limits that meets none of them is that search
(**`walk_cases`**), and the search without limits is followed to its end if its calls and its height are allowed
(**`Explores.walk_eq`**). So limits decide whether there is a parse, and never which one it is
(**`Graph.parse_limits`**).
-/

namespace SpeechGrammar

/-- The state with one more node entered. -/
def SearchState.counted (s : SearchState) : SearchState := { s with steps := s.steps + 1 }

/-- The state in which one more loop entry is being visited. -/
def SearchState.visiting (s : SearchState) (here : Nat × Nat) : SearchState := { s with visits := here :: s.visits }

namespace SearchOptions

/-- So many nodes may be entered. -/
def AllowsSteps (o : SearchOptions) (steps : Nat) : Prop := ∀ most, o.maxSteps = some most → steps ≤ most

/-- So many nodes may be entered, and a path may have so many. -/
def Allows (o : SearchOptions) (steps height : Nat) : Prop := o.AllowsSteps steps ∧ height ≤ o.maxDepth

/-- What these options allow the other ones allow as well, and they take the same wildcards. -/
structure Narrower (o o' : SearchOptions) : Prop where
  wildcards : o.wildcards = o'.wildcards
  depth : o.maxDepth ≤ o'.maxDepth
  steps : ∀ most, o'.maxSteps = some most → ∃ fewer, o.maxSteps = some fewer ∧ fewer ≤ most

theorem Narrower.allows {o o' : SearchOptions} (h : o.Narrower o') {steps height : Nat} (ha : o.Allows steps height) :
    o'.Allows steps height := by
  refine ⟨fun most hmost => ?_, Nat.le_trans ha.2 h.depth⟩
  obtain ⟨fewer, hfewer, hle⟩ := h.steps most hmost
  exact Nat.le_trans (ha.1 fewer hfewer) hle

end SearchOptions

namespace Search

/-! ## The search without limits -/

section

variable (g : Graph) (wildcards : Bool)

mutual

/-- From a node on. A loop entry that is being visited with the same words left is entered, and then left alone. -/
inductive Explores : (id : Nat) → SearchState → (found : Bool) → SearchState → (height : Nat) → Prop
  | missing {id s} : g.nodes[id]? = none → Explores id s false s.counted 1
  | returned {id node s} :
      g.nodes[id]? = some node → node.loopEntry = true → (id, s.rest.length) ∈ s.visits →
      Explores id s false s.counted 1
  | looped {id node s found t height} :
      g.nodes[id]? = some node → node.loopEntry = true → (id, s.rest.length) ∉ s.visits →
      ExploresNode id node (s.counted.visiting (id, s.rest.length)) found t height →
      Explores id s found { t with visits := t.visits.erase (id, s.rest.length) } (height + 1)
  | passed {id node s found t height} :
      g.nodes[id]? = some node → node.loopEntry = false → ExploresNode id node s.counted found t height →
      Explores id s found t (height + 1)

/-- At a node: take its words, and go on along its arcs. -/
inductive ExploresNode : (id : Nat) → Node → SearchState → (found : Bool) → SearchState → (height : Nat) → Prop
  | stop {id node s} : id = g.stop ∧ s.rest = [] → ExploresNode id node s true (s.push (.mark id)) 0
  | refused {id node s} :
      ¬(id = g.stop ∧ s.rest = []) → node.kind.take wildcards s.rest = none → ExploresNode id node s false s 0
  | found {id node s rest index t height} :
      ¬(id = g.stop ∧ s.rest = []) → node.kind.take wildcards s.rest = some rest →
      ExploresArcs node.arcs 0 { s with rest := rest } (some index) t height →
      ExploresNode id node s true { t with fragments := node.kind.emit id index t.fragments } height
  | failed {id node s rest t height} :
      ¬(id = g.stop ∧ s.rest = []) → node.kind.take wildcards s.rest = some rest →
      ExploresArcs node.arcs 0 { s with rest := rest } none t height →
      ExploresNode id node s false { t with rest := s.rest } height

/-- Along arcs, of which the first has the number `index`, up to the first one that leads to the final node. -/
inductive ExploresArcs :
    (arcs : List Nat) → (index : Nat) → SearchState → Option Nat → SearchState → (height : Nat) → Prop
  | nil {index s} : ExploresArcs [] index s none s 0
  | found {next arcs index s t height} :
      Explores next s true t height → ExploresArcs (next :: arcs) index s (some index) t height
  | later {next arcs index s t height taken u height'} :
      Explores next s false t height → ExploresArcs arcs (index + 1) { t with rest := s.rest } taken u height' →
      ExploresArcs (next :: arcs) index s taken u (max height height')

end

end

variable {g : Graph} {wildcards : Bool}

mutual

/-- **A search without limits has one outcome at most.** -/
theorem Explores.unique : ∀ {id : Nat} {s t t' : SearchState} {found found' : Bool} {height height' : Nat},
    Explores g wildcards id s found t height → Explores g wildcards id s found' t' height' →
    found = found' ∧ t = t' ∧ height = height'
  | _, _, _, _, _, _, _, _, .missing hn, h' => by
    cases h' with
    | missing _ => exact ⟨rfl, rfl, rfl⟩
    | returned hn' | looped hn' | passed hn' => rw [hn] at hn'; cases hn'
  | _, _, _, _, _, _, _, _, .returned hn hl hv, h' => by
    cases h' with
    | missing hn' => rw [hn] at hn'; cases hn'
    | returned _ _ _ => exact ⟨rfl, rfl, rfl⟩
    | looped hn' _ hv' => exact absurd hv hv'
    | passed hn' hl' => rw [hn] at hn'; cases hn'; rw [hl] at hl'; cases hl'
  | _, _, _, _, _, _, _, _, .looped hn hl hv h, h' => by
    cases h' with
    | missing hn' => rw [hn] at hn'; cases hn'
    | returned _ _ hv' => exact absurd hv' hv
    | looped hn' _ _ h' =>
      rw [hn] at hn'
      cases hn'
      obtain ⟨rfl, rfl, rfl⟩ := h.unique h'
      exact ⟨rfl, rfl, rfl⟩
    | passed hn' hl' => rw [hn] at hn'; cases hn'; rw [hl] at hl'; cases hl'
  | _, _, _, _, _, _, _, _, .passed hn hl h, h' => by
    cases h' with
    | missing hn' => rw [hn] at hn'; cases hn'
    | returned hn' hl' | looped hn' hl' => rw [hn] at hn'; cases hn'; rw [hl] at hl'; cases hl'
    | passed hn' _ h' =>
      rw [hn] at hn'
      cases hn'
      obtain ⟨rfl, rfl, rfl⟩ := h.unique h'
      exact ⟨rfl, rfl, rfl⟩

theorem ExploresNode.unique : ∀ {id : Nat} {node : Node} {s t t' : SearchState} {found found' : Bool}
    {height height' : Nat}, ExploresNode g wildcards id node s found t height →
    ExploresNode g wildcards id node s found' t' height' → found = found' ∧ t = t' ∧ height = height'
  | _, _, _, _, _, _, _, _, _, .stop hend, h' => by
    cases h' with
    | stop _ => exact ⟨rfl, rfl, rfl⟩
    | refused hend' | found hend' | failed hend' => exact absurd hend hend'
  | _, _, _, _, _, _, _, _, _, .refused hend ht, h' => by
    cases h' with
    | stop hend' => exact absurd hend' hend
    | refused _ _ => exact ⟨rfl, rfl, rfl⟩
    | found _ ht' | failed _ ht' => rw [ht] at ht'; cases ht'
  | _, _, _, _, _, _, _, _, _, .found hend ht h, h' => by
    cases h' with
    | stop hend' => exact absurd hend' hend
    | refused _ ht' => rw [ht] at ht'; cases ht'
    | found _ ht' h' =>
      rw [ht] at ht'
      cases ht'
      obtain ⟨⟨⟩, rfl, rfl⟩ := h.unique h'
      exact ⟨rfl, rfl, rfl⟩
    | failed _ ht' h' =>
      rw [ht] at ht'
      cases ht'
      cases (h.unique h').1
  | _, _, _, _, _, _, _, _, _, .failed hend ht h, h' => by
    cases h' with
    | stop hend' => exact absurd hend' hend
    | refused _ ht' => rw [ht] at ht'; cases ht'
    | found _ ht' h' =>
      rw [ht] at ht'
      cases ht'
      cases (h.unique h').1
    | failed _ ht' h' =>
      rw [ht] at ht'
      cases ht'
      obtain ⟨-, rfl, rfl⟩ := h.unique h'
      exact ⟨rfl, rfl, rfl⟩

theorem ExploresArcs.unique : ∀ {arcs : List Nat} {index : Nat} {s t t' : SearchState} {taken taken' : Option Nat}
    {height height' : Nat}, ExploresArcs g wildcards arcs index s taken t height →
    ExploresArcs g wildcards arcs index s taken' t' height' → taken = taken' ∧ t = t' ∧ height = height'
  | _, _, _, _, _, _, _, _, _, .nil, h' => by cases h'; exact ⟨rfl, rfl, rfl⟩
  | _, _, _, _, _, _, _, _, _, .found h, h' => by
    cases h' with
    | found h' =>
      obtain ⟨-, rfl, rfl⟩ := h.unique h'
      exact ⟨rfl, rfl, rfl⟩
    | later h' _ => cases (h.unique h').1
  | _, _, _, _, _, _, _, _, _, .later h hs, h' => by
    cases h' with
    | found h' => cases (h.unique h').1
    | later h' hs' =>
      obtain ⟨-, rfl, rfl⟩ := h.unique h'
      obtain ⟨rfl, rfl, rfl⟩ := hs.unique hs'
      exact ⟨rfl, rfl, rfl⟩

end

/-! ## Following a search without limits -/

mutual

/-- Steps are only counted up, and no limit is met. -/
theorem Explores.counts : ∀ {id : Nat} {s t : SearchState} {found : Bool} {height : Nat},
    Explores g wildcards id s found t height → s.steps < t.steps ∧ t.exhausted = s.exhausted
  | _, s, _, _, _, .missing _ => ⟨Nat.lt_succ_self s.steps, rfl⟩
  | _, s, _, _, _, .returned _ _ _ => ⟨Nat.lt_succ_self s.steps, rfl⟩
  | _, _, _, _, _, .looped _ _ _ h => h.counts
  | _, _, _, _, _, .passed _ _ h => h.counts

theorem ExploresNode.counts : ∀ {id : Nat} {node : Node} {s t : SearchState} {found : Bool} {height : Nat},
    ExploresNode g wildcards id node s found t height → s.steps ≤ t.steps ∧ t.exhausted = s.exhausted
  | _, _, s, _, _, _, .stop _ => ⟨Nat.le_refl s.steps, rfl⟩
  | _, _, s, _, _, _, .refused _ _ => ⟨Nat.le_refl s.steps, rfl⟩
  | _, _, _, _, _, _, .found _ _ h => h.counts
  | _, _, _, _, _, _, .failed _ _ h => h.counts

theorem ExploresArcs.counts : ∀ {arcs : List Nat} {index : Nat} {s t : SearchState} {taken : Option Nat} {height : Nat},
    ExploresArcs g wildcards arcs index s taken t height → s.steps ≤ t.steps ∧ t.exhausted = s.exhausted
  | _, _, s, _, _, _, .nil => ⟨Nat.le_refl s.steps, rfl⟩
  | _, _, _, _, _, _, .found h => ⟨Nat.le_of_lt h.counts.1, h.counts.2⟩
  | _, _, _, _, _, _, .later h hs => by
    obtain ⟨hlt, hex⟩ := h.counts
    obtain ⟨hle, hex'⟩ := hs.counts
    exact ⟨Nat.le_trans (Nat.le_of_lt hlt) hle, hex'.trans hex⟩

end

variable {o : SearchOptions}

/-- No step is left only if so many are not allowed. -/
theorem outOfSteps_eq_false_iff {s : SearchState} : outOfSteps o s = false ↔ o.AllowsSteps (s.steps + 1) := by
  unfold outOfSteps SearchOptions.AllowsSteps
  cases o.maxSteps with
  | none => simp
  | some most =>
    simp only [Option.any_some, decide_eq_false_iff_not, Nat.not_le, Option.some.injEq, forall_eq']
    exact Nat.lt_iff_add_one_le

theorem AllowsSteps_mono {m n : Nat} (h : o.AllowsSteps n) (hle : m ≤ n) : o.AllowsSteps m :=
  fun most hmost => Nat.le_trans hle (h most hmost)

/-- A search that may enter one more node enters it. -/
theorem walk_eq_enter {id height depth : Nat} {s : SearchState} (hsteps : o.AllowsSteps (s.steps + 1))
    (hd : height + 1 ≤ depth) :
    ∃ left, height ≤ left ∧ walk g o depth id s = enter g o (walk g o left) id s.counted := by
  cases depth with
  | zero => exact absurd hd (Nat.not_succ_le_zero _)
  | succ left =>
    refine ⟨left, Nat.le_of_succ_le_succ hd, ?_⟩
    rw [walk, outOfSteps_eq_false_iff.mpr hsteps]
    rfl

mutual

/-- **A search without limits is followed to its end** if the limits allow its calls and its height. -/
theorem Explores.walk_eq : ∀ {id : Nat} {s t : SearchState} {found : Bool} {height depth : Nat},
    Explores g o.wildcards id s found t height → s.exhausted = false → o.AllowsSteps t.steps → height ≤ depth →
    walk g o depth id s = (found, t)
  | _, _, _, _, _, _, .missing hn, _, ht, hd => by
    obtain ⟨left, -, hwalk⟩ := walk_eq_enter (g := g) ht hd
    rw [hwalk, enter, hn]
  | id, s, _, _, _, _, .returned hn hl hv, _, ht, hd => by
    obtain ⟨left, -, hwalk⟩ := walk_eq_enter (g := g) ht hd
    have hin : s.counted.visits.contains (id, s.counted.rest.length) = true := List.contains_iff_mem.mpr hv
    rw [hwalk, enter, hn]
    simp only [hl, hin, ↓reduceIte]
  | id, s, _, _, _, _, .looped hn hl hv h, hs, ht, hd => by
    obtain ⟨left, hleft, hwalk⟩ := walk_eq_enter (g := g) (AllowsSteps_mono ht h.counts.1) hd
    have hnot : s.counted.visits.contains (id, s.counted.rest.length) = false := by
      simpa [SearchState.counted] using hv
    have hvisit := h.visit_eq hs ht hleft
    simp only [SearchState.visiting, SearchState.counted] at hvisit hnot
    rw [hwalk, enter, hn]
    simp only [SearchState.counted, hl, hnot, hvisit, Bool.false_eq_true, ↓reduceIte]
  | _, _, _, _, _, _, .passed hn hl h, hs, ht, hd => by
    obtain ⟨left, hleft, hwalk⟩ := walk_eq_enter (g := g) (AllowsSteps_mono ht h.counts.1) hd
    rw [hwalk, enter, hn]
    simp only [hl, Bool.false_eq_true, ↓reduceIte]
    exact h.visit_eq hs ht hleft

theorem ExploresNode.visit_eq : ∀ {id : Nat} {node : Node} {s t : SearchState} {found : Bool} {height depth : Nat},
    ExploresNode g o.wildcards id node s found t height → s.exhausted = false → o.AllowsSteps t.steps →
    height ≤ depth → visit g o (walk g o depth) id node s = (found, t)
  | _, _, _, _, _, _, depth, .stop hend, _, _, _ => by
    rw [Search.visit_eq (walk_restores depth), if_pos (isFinal_iff.mpr hend)]
  | _, _, _, _, _, _, depth, .refused hend htake, _, _, _ => by
    rw [Search.visit_eq (walk_restores depth), if_neg (isFinal_iff.not.mpr hend), htake]
  | _, _, _, _, _, _, depth, .found hend htake h, hs, ht, hd => by
    rw [Search.visit_eq (walk_restores depth), if_neg (isFinal_iff.not.mpr hend), htake]
    dsimp only
    rw [h.follow_eq hs ht hd]
  | _, _, _, _, _, _, depth, .failed hend htake h, hs, ht, hd => by
    rw [Search.visit_eq (walk_restores depth), if_neg (isFinal_iff.not.mpr hend), htake]
    dsimp only
    rw [h.follow_eq hs ht hd]

theorem ExploresArcs.follow_eq : ∀ {arcs : List Nat} {index : Nat} {s t : SearchState} {taken : Option Nat}
    {height depth : Nat}, ExploresArcs g o.wildcards arcs index s taken t height → s.exhausted = false →
    o.AllowsSteps t.steps → height ≤ depth → follow (walk g o depth) arcs index s = (taken, t)
  | _, _, _, _, _, _, _, .nil, _, _, _ => rfl
  | _, _, _, _, _, _, _, .found h, hs, ht, hd => by rw [follow, h.walk_eq hs ht hd]
  | _, _, _, _, _, _, _, .later h hs', hs, ht, hd => by
    have hbetween := AllowsSteps_mono ht hs'.counts.1
    rw [follow, h.walk_eq hs hbetween (Nat.le_trans (Nat.le_max_left _ _) hd)]
    have hex := h.counts.2.trans hs
    dsimp only
    rw [if_neg (by rw [hex]; exact Bool.false_ne_true)]
    exact hs'.follow_eq hex ht (Nat.le_trans (Nat.le_max_right _ _) hd)

end

/-! ## Meeting no limit -/

/-- The search either meets a limit, and then it finds nothing, or it is the search without limits, whose calls are
allowed and whose height is so much at most. -/
def Outcome (explores : Bool → SearchState → Nat → Prop) (o : SearchOptions) (depth : Nat) (found : Bool)
    (t : SearchState) : Prop :=
  found = false ∧ t.exhausted = true ∨
    t.exhausted = false ∧ o.AllowsSteps t.steps ∧ ∃ height, height ≤ depth ∧ explores found t height

/-- Every search from a node meets a limit or is the one without limits, if no limit has been met before. -/
def Follows (g : Graph) (o : SearchOptions) (depth : Nat) : Prop :=
  ∀ (id : Nat) (s t : SearchState) (found : Bool), walk g o depth id s = (found, t) → s.exhausted = false →
    Outcome (Explores g o.wildcards id s) o depth found t

section

variable {depth : Nat}

theorem follow_cases (hw : Follows g o depth) : ∀ {arcs : List Nat} {index : Nat} {s t : SearchState}
    {taken : Option Nat}, follow (walk g o depth) arcs index s = (taken, t) → s.exhausted = false →
    o.AllowsSteps s.steps → taken = none ∧ t.exhausted = true ∨ t.exhausted = false ∧ o.AllowsSteps t.steps ∧
      ∃ height, height ≤ depth ∧ ExploresArcs g o.wildcards arcs index s taken t height
  | [], _, _, _, _, h, hs, hsteps => by
    cases h
    exact .inr ⟨hs, hsteps, 0, Nat.zero_le _, .nil⟩
  | next :: arcs, index, s, t, taken, h, hs, _ => by
    rw [follow] at h
    split at h
    · rename_i u hu
      cases h
      obtain ⟨hfalse, -⟩ | ⟨hex, hsteps, height, hle, hexp⟩ := hw _ _ _ _ hu hs
      · cases hfalse
      · exact .inr ⟨hex, hsteps, height, hle, .found hexp⟩
    · rename_i u hu
      dsimp only at h
      split at h
      · rename_i hex
        cases h
        exact .inl ⟨rfl, hex⟩
      · rename_i hex
        obtain ⟨-, hmet⟩ | ⟨hfree, hsteps, height, hle, hexp⟩ := hw _ _ _ _ hu hs
        · exact absurd hmet hex
        · obtain hmet | ⟨hend, hlast, height', hle', hrest⟩ := follow_cases hw h hfree hsteps
          · exact .inl hmet
          · exact .inr ⟨hend, hlast, max height height', Nat.max_le.mpr ⟨hle, hle'⟩, .later hexp hrest⟩

theorem visit_cases (hw : Follows g o depth) {id : Nat} {node : Node} {s t : SearchState} {found : Bool}
    (h : visit g o (walk g o depth) id node s = (found, t)) (hs : s.exhausted = false)
    (hsteps : o.AllowsSteps s.steps) : Outcome (ExploresNode g o.wildcards id node s) o depth found t := by
  rw [visit_eq (walk_restores depth)] at h
  split at h
  · rename_i hfin
    cases h
    exact .inr ⟨hs, hsteps, 0, Nat.zero_le _, .stop (isFinal_iff.mp hfin)⟩
  · rename_i hfin
    have hend := isFinal_iff.not.mp hfin
    split at h
    · rename_i htake
      cases h
      exact .inr ⟨hs, hsteps, 0, Nat.zero_le _, .refused hend htake⟩
    · rename_i rest htake
      split at h
      · rename_i index u hf
        cases h
        obtain ⟨hnone, -⟩ | ⟨hex, hlast, height, hle, harcs⟩ := follow_cases hw hf hs hsteps
        · cases hnone
        · exact .inr ⟨hex, hlast, height, hle, .found hend htake harcs⟩
      · rename_i u hf
        cases h
        obtain ⟨-, hmet⟩ | ⟨hex, hlast, height, hle, harcs⟩ := follow_cases hw hf hs hsteps
        · exact .inl ⟨rfl, hmet⟩
        · exact .inr ⟨hex, hlast, height, hle, .failed hend htake harcs⟩

theorem enter_cases (hw : Follows g o depth) {id : Nat} {s t : SearchState} {found : Bool}
    (h : enter g o (walk g o depth) id s.counted = (found, t)) (hs : s.exhausted = false)
    (hsteps : o.AllowsSteps s.counted.steps) : Outcome (Explores g o.wildcards id s) o (depth + 1) found t := by
  unfold enter at h
  split at h
  · rename_i hn
    cases h
    exact .inr ⟨hs, hsteps, 1, Nat.succ_le_succ (Nat.zero_le _), .missing hn⟩
  · rename_i node hn
    split at h
    · rename_i hl
      dsimp only at h
      split at h
      · rename_i hin
        cases h
        exact .inr ⟨hs, hsteps, 1, Nat.succ_le_succ (Nat.zero_le _),
          .returned hn hl (List.contains_iff_mem.mp hin)⟩
      · rename_i hnot
        generalize hv : visit g o (walk g o depth) id node _ = r at h
        obtain ⟨found', u⟩ := r
        cases h
        have hnew : (id, s.rest.length) ∉ s.visits := fun hin => hnot (List.contains_iff_mem.mpr hin)
        obtain ⟨hfalse, hmet⟩ | ⟨hex, hlast, height, hle, hnode⟩ := visit_cases hw hv hs hsteps
        · exact .inl ⟨hfalse, hmet⟩
        · exact .inr ⟨hex, hlast, height + 1, Nat.succ_le_succ hle, .looped hn hl hnew hnode⟩
    · rename_i hl
      obtain ⟨hfalse, hmet⟩ | ⟨hex, hlast, height, hle, hnode⟩ := visit_cases hw h hs hsteps
      · exact .inl ⟨hfalse, hmet⟩
      · exact .inr ⟨hex, hlast, height + 1, Nat.succ_le_succ hle, .passed hn (Bool.not_eq_true _ ▸ hl) hnode⟩

end

/-- **A search meets a limit and finds nothing, or it is the search without limits.** -/
theorem walk_cases : ∀ depth, Follows g o depth
  | 0 => fun id s t found h _ => by
    cases h
    exact .inl ⟨rfl, rfl⟩
  | depth + 1 => fun id s t found h hs => by
    rw [walk] at h
    split at h
    · cases h
      exact .inl ⟨rfl, rfl⟩
    · rename_i hout
      exact enter_cases (walk_cases depth) h hs (outOfSteps_eq_false_iff.mp (Bool.not_eq_true _ ▸ hout))

end Search

namespace Graph

open Environment (lampsGraph lampsWords lampsParse)

variable {g : Graph} {spoken : List String} {o : SearchOptions}

/-- The search for a parse without limits: the parse it finds, how many nodes it enters in all, and how many its longest
path has. -/
def Unlimited (g : Graph) (wildcards : Bool) (spoken : List String) (result : Option Parse) (calls height : Nat) :
    Prop :=
  ∃ found t, Search.Explores g wildcards g.start (.initial (spoken.map Text.lower)) found t height ∧
    result = (if found then t.parse? else none) ∧ calls = t.steps

/-- A search that is over when a limit is met finds no parse. -/
theorem parse_cases (g : Graph) (spoken : List String) (o : SearchOptions) :
    g.parse spoken o = none ∨
      ∃ calls height, o.Allows calls height ∧ g.Unlimited o.wildcards spoken (g.parse spoken o) calls height := by
  unfold parse
  generalize hw : Search.walk g o o.maxDepth g.start (.initial (spoken.map Text.lower)) = r
  obtain ⟨found, t⟩ := r
  obtain ⟨rfl, -⟩ | ⟨-, hsteps, height, hle, hexp⟩ := Search.walk_cases o.maxDepth _ _ _ _ hw rfl
  · exact .inl rfl
  · refine .inr ⟨t.steps, height, ⟨hsteps, hle⟩, found, t, hexp, ?_, rfl⟩
    cases found <;> rfl

theorem Unlimited.unique {wildcards : Bool} {result result' : Option Parse} {calls calls' height height' : Nat}
    (h : g.Unlimited wildcards spoken result calls height) (h' : g.Unlimited wildcards spoken result' calls' height') :
    result = result' ∧ calls = calls' ∧ height = height' := by
  obtain ⟨found, t, hexp, rfl, rfl⟩ := h
  obtain ⟨found', t', hexp', rfl, rfl⟩ := h'
  obtain ⟨rfl, rfl, rfl⟩ := hexp.unique hexp'
  exact ⟨rfl, rfl, rfl⟩

/-- A search within its limits finds what the one without limits finds. -/
theorem Unlimited.parse_eq {result : Option Parse} {calls height : Nat}
    (h : g.Unlimited o.wildcards spoken result calls height) (ha : o.Allows calls height) :
    g.parse spoken o = result := by
  obtain ⟨found, t, hexp, rfl, rfl⟩ := h
  unfold parse
  rw [hexp.walk_eq rfl ha.1 ha.2]
  cases found <;> rfl

/-- **Limits decide only whether a parse is found.** A search finds what the one without limits finds if its calls and
its longest path are allowed, and nothing otherwise, also if the search without limits has no end. So wider limits
find every parse again. -/
theorem parse_limits (g : Graph) (spoken : List String) (o : SearchOptions) :
    (∀ result calls height, g.Unlimited o.wildcards spoken result calls height →
      (o.Allows calls height → g.parse spoken o = result) ∧ (¬o.Allows calls height → g.parse spoken o = none)) ∧
    ((¬∃ result calls height, g.Unlimited o.wildcards spoken result calls height) → g.parse spoken o = none) ∧
    ((g.search spoken o).2.exhausted = true → g.parse spoken o = none) ∧
    ∀ o' p, o.Narrower o' → g.parse spoken o = some p → g.parse spoken o' = some p := by
  have hmet : ∀ result calls height, g.Unlimited o.wildcards spoken result calls height →
      ¬o.Allows calls height → g.parse spoken o = none := by
    intro result calls height h hnot
    rcases parse_cases g spoken o with hnone | ⟨calls', height', ha, h'⟩
    · exact hnone
    · obtain ⟨-, rfl, rfl⟩ := h.unique h'
      exact absurd ha hnot
  refine ⟨fun _ _ _ h => ⟨h.parse_eq, hmet _ _ _ h⟩, fun hnever => ?_, fun hexhausted => ?_, fun o' p hwider hp => ?_⟩
  · rcases parse_cases g spoken o with hnone | ⟨calls, height, -, h⟩
    · exact hnone
    · exact absurd ⟨_, calls, height, h⟩ hnever
  · have hcases : Search.Outcome _ o o.maxDepth (g.search spoken o).1 (g.search spoken o).2 :=
      Search.walk_cases o.maxDepth _ _ _ _ rfl rfl
    obtain ⟨hfalse, -⟩ | ⟨hfree, -⟩ := hcases
    · rw [parse_eq, hfalse]
      rfl
    · exact absurd (hexhausted.symm.trans hfree) (by decide)
  · rcases parse_cases g spoken o with hnone | ⟨calls, height, ha, h⟩
    · rw [hnone] at hp
      cases hp
    · rw [hwider.wildcards, hp] at h
      exact h.parse_eq (hwider.allows ha)

/-- The search enters 31 nodes, and its longest path has 27. With one less of either there is no parse. -/
theorem lamps_parse_limits :
    lampsGraph.parse lampsWords default = some lampsParse ∧
      (∀ depth, 1000 ≤ depth →
        lampsGraph.parse lampsWords (SearchOptions.default.limitDepth depth) = some lampsParse) ∧
      lampsGraph.parse lampsWords (SearchOptions.default.limitDepth 26) = none ∧
      lampsGraph.parse lampsWords (SearchOptions.default.limitSteps 30) = none := by
  have hp : lampsGraph.parse lampsWords default = some lampsParse := by cbv
  have hdeep : (lampsGraph.search lampsWords (SearchOptions.default.limitDepth 26)).2.exhausted = true := by
    decide +kernel
  have hsteps : (lampsGraph.search lampsWords (SearchOptions.default.limitSteps 30)).2.exhausted = true := by
    decide +kernel
  refine ⟨hp, fun depth hdepth => ?_, (parse_limits lampsGraph lampsWords _).2.2.1 hdeep,
    (parse_limits lampsGraph lampsWords _).2.2.1 hsteps⟩
  have hwider : (default : SearchOptions).Narrower (SearchOptions.default.limitDepth depth) := by
    refine ⟨rfl, hdepth, fun most hmost => ?_⟩
    cases hmost
  exact (parse_limits lampsGraph lampsWords default).2.2.2 _ _ hwider hp

end Graph

end SpeechGrammar
