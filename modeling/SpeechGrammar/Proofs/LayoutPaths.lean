import SpeechGrammar.Proofs.LayoutWalks

/-!
# Paths through the layout of a pattern

For every tree of a pattern there is a path that enters its layout at the first node, takes words that fit the tree,
puts the tree on top of the fragments, and leaves along any arc of the last node (`Pattern.Complete`). This is shown for
each kind of pattern from the patterns in it, and holds of all patterns (**`complete`**). The other way round, a path is
a walk, and so it takes the words of the tree that is read off it (`LayoutWalks`).
-/

namespace SpeechGrammar

open Search (FitsAll)

namespace Graph

/-- There is a path from the node that takes the words and has the fragments. -/
def Enters (g : Graph) (wildcards : Bool) (id : Nat) (spoken : List String) (fs : List Fragment) : Prop :=
  ∃ arcs visits, g.Path wildcards arcs visits id spoken fs

/-- A path between the node where something starts and the one where it stops makes a path through the whole. -/
theorem enters_of_brackets {g : Graph} {wildcards : Bool} {base : Nat} {kind last : NodeKind} {arcs out : List Nat}
    {loopEntry : Bool} (hc : kind.closedBy (base + 1) last = true)
    (hstart : g.nodes[base]? = some ⟨kind, arcs, loopEntry, false⟩)
    (hstop : g.nodes[base + 1]? = some ⟨last, out, false, false⟩)
    {index next : Nat} (harc : arcs[index]? = some next) (ts : List ParseTree) {t : ParseTree}
    (hgather : kind.gather index ts = some t) (front : List String)
    (inner : ∀ rest fs, g.Enters wildcards (base + 1) rest fs →
      g.Enters wildcards next (front ++ rest) (ts.map .node ++ fs))
    {after : Nat} {rest : List String} {fs : List Fragment} (hafter : after ∈ out)
    (hp : g.Enters wildcards after rest fs) : g.Enters wildcards base (front ++ rest) (.node t :: fs) := by
  obtain ⟨as, visits, hp⟩ := hp
  obtain ⟨i, hi⟩ := List.mem_iff_getElem?.mp hafter
  have hend := NodeKind.isEnd_of_closedBy hc
  have hlast := Path.step hstop (NodeKind.take_of_isEnd hend _ _) hi hp
  rw [NodeKind.emit_of_isEnd hend] at hlast
  obtain ⟨as', visits', hp'⟩ := inner _ _ ⟨_, _, hlast⟩
  have hfirst := Path.step hstart (NodeKind.take_of_gather hgather _ _) harc hp'
  rw [NodeKind.emit_of_gather hc hgather] at hfirst
  exact ⟨_, _, hfirst⟩

end Graph

namespace Pattern

/-- For every tree of the pattern there is a path that enters the layout, takes words that fit the tree, has the tree on
top of the fragments, and goes on like any path from one of the arcs that lead out. -/
def Complete (g : Graph) (wildcards : Bool) (p : Pattern) : Prop :=
  ∀ base out loopEntry, g.Holds base (p.layout base out loopEntry) →
    ∀ t, p.Derives t → ∀ front, FitsAll wildcards t.tokens front →
      ∀ next ∈ out, ∀ rest fs, g.Enters wildcards next rest fs → g.Enters wildcards base (front ++ rest) (.node t :: fs)

section

variable {g : Graph} {wildcards : Bool}

theorem complete_token (text : String) : Complete g wildcards (.token text) := by
  intro base out loopEntry hg t ht front hf next hnext rest fs hp
  cases ht
  obtain ⟨as, visits, hp⟩ := hp
  obtain ⟨i, hi⟩ := List.mem_iff_getElem?.mp hnext
  exact ⟨_, _, .step hg.head (Search.consume_lowerWords_iff.mpr ⟨front, rfl, hf⟩) hi hp⟩

theorem complete_tag (value : String) : Complete g wildcards (.tag value) := by
  intro base out loopEntry hg t ht front hf next hnext rest fs hp
  cases ht
  cases hf
  obtain ⟨as, visits, hp⟩ := hp
  obtain ⟨i, hi⟩ := List.mem_iff_getElem?.mp hnext
  exact ⟨_, _, .step hg.head rfl hi hp⟩

theorem complete_rule (name : String) {body : Pattern} (hc : Complete g wildcards body) :
    Complete g wildcards (.rule name body) := by
  intro base out loopEntry hg t ht front hf next hnext rest fs hp
  cases ht with
  | @rule _ _ t ht =>
    exact Graph.enters_of_brackets (by simp [NodeKind.closedBy]) hg.head hg.tail.head
      (show [base + 2][0]? = some (base + 2) from rfl) [t] rfl front
      (fun rest fs hp => hc _ _ _ hg.tail.tail t ht front hf (base + 1) (List.mem_singleton.mpr rfl) rest fs hp)
      hnext hp

theorem complete_items {stop : Nat} : ∀ {items : List Pattern}, (∀ p ∈ items, Complete g wildcards p) → ∀ {base : Nat},
    g.Holds base (layoutItems items base stop) → ∀ {ts}, DerivesAll items ts → ∀ {front},
    FitsAll wildcards (ParseTree.tokensAll ts) front → ∀ rest fs, g.Enters wildcards stop rest fs →
    g.Enters wildcards (if items.isEmpty then stop else base) (front ++ rest) (ts.map .node ++ fs)
  | [], _, _, _, _, .nil, _, hf, _, _, hp => by
    cases hf
    exact hp
  | p :: ps, hc, base, hg, _, .cons ht hts, _, hf, rest, fs, hp => by
    obtain ⟨first, later, rfl, hf₁, hf₂⟩ := Search.fitsAll_append_iff.mp hf
    have hright := hg.right
    rw [length_layout] at hright
    have hlater := complete_items (fun q hq => hc q (List.mem_cons_of_mem _ hq)) hright hts hf₂ rest fs hp
    rw [List.append_assoc]
    exact hc p List.mem_cons_self base _ _ hg.left _ ht first hf₁ _ (List.mem_singleton.mpr rfl) _ _ hlater

theorem complete_sequence {items : List Pattern} (hc : ∀ p ∈ items, Complete g wildcards p) :
    Complete g wildcards (.sequence items) := by
  intro base out loopEntry hg t ht front hf next hnext rest fs hp
  cases ht with
  | sequence hts =>
    exact Graph.enters_of_brackets (by simp [NodeKind.closedBy]) hg.head hg.tail.head
      (show [if items.isEmpty then base + 1 else base + 2][0]? = some _ from rfl) _ rfl front
      (complete_items hc hg.tail.tail hts hf) hnext hp

/-- A branch stands where the arc with its number leads to. -/
theorem entries_of_branch : ∀ {branches : List Pattern} (base : Nat) {index : Nat} {p : Pattern},
    branches[index]? = some p → ∃ next, (entries branches base)[index]? = some next
  | _ :: _, base, 0, _, _ => ⟨base, rfl⟩
  | q :: _, base, _ + 1, _, h => entries_of_branch (base + q.size) (by simpa using h)

theorem complete_alternatives {branches : List Pattern} (hc : ∀ p ∈ branches, Complete g wildcards p) :
    Complete g wildcards (.alternatives branches) := by
  intro base out loopEntry hg t ht front hf after hafter rest fs hp
  cases ht with
  | @alternatives _ index p t hi ht =>
    obtain ⟨next, hnext⟩ := entries_of_branch (base + 2) hi
    obtain ⟨q, hq, -, hlayout⟩ := holds_branch hg.tail.tail hnext
    rw [hi, Option.some.injEq] at hq
    subst hq
    exact Graph.enters_of_brackets (by simp [NodeKind.closedBy]) hg.head hg.tail.head hnext [t] rfl front
      (fun rest fs hp => hc p (List.mem_of_getElem? hi) next _ _ hlayout t ht front hf (base + 1)
        (List.mem_singleton.mpr rfl) rest fs hp) hafter hp

/-! ### Repetitions -/

/-- The last copy of the body can be passed once, and as often as needed if there is no upper bound. -/
theorem complete_lastCopy {body : Pattern} (hc : Complete g wildcards body) {base stop : Nat} {unbounded : Bool}
    (hg : g.Holds base (body.layout base (if unbounded then [base, stop] else [stop]) unbounded)) :
    ∀ {t ts}, body.Derives t → (∀ u ∈ ts, body.Derives u) → (unbounded = false → ts = []) → ∀ {front},
    FitsAll wildcards (ParseTree.tokensAll (t :: ts)) front → ∀ rest fs, g.Enters wildcards stop rest fs →
    g.Enters wildcards base (front ++ rest) ((t :: ts).map .node ++ fs)
  | t, [], ht, _, _, front, hf, rest, fs, hp => by
    rw [ParseTree.tokensAll_singleton] at hf
    exact hc base _ _ hg t ht front hf stop (by cases unbounded <;> simp) rest fs hp
  | t, u :: us, ht, hus, hb, front, hf, rest, fs, hp => by
    obtain ⟨first, later, rfl, hf₁, hf₂⟩ := Search.fitsAll_append_iff.mp hf
    have hlater := complete_lastCopy hc hg (hus u List.mem_cons_self) (fun v hv => hus v (List.mem_cons_of_mem _ hv))
      (fun h => nomatch hb h) hf₂ rest fs hp
    rw [List.append_assoc]
    cases unbounded with
    | false => exact nomatch hb rfl
    | true => exact hc base _ _ hg t ht first hf₁ base (by simp) _ _ hlater

/-- The copies of the body can be passed as often as there are trees, if these are enough and not too many. -/
theorem complete_copies {body : Pattern} (hc : Complete g wildcards body) {min stop : Nat} {unbounded : Bool} :
    ∀ {left done base : Nat}, left ≠ 0 →
    g.Holds base (layoutCopies (fun base out loopEntry => body.layout base out loopEntry) body.size min stop unbounded
      left done base) → ∀ {ts}, ts ≠ [] → Repeats body min done left unbounded ts → ∀ {front},
    FitsAll wildcards (ParseTree.tokensAll ts) front → ∀ rest fs, g.Enters wildcards stop rest fs →
    g.Enters wildcards base (front ++ rest) (ts.map .node ++ fs)
  | 1, done, base, _, hg, t :: ts, _, hts, front, hf, rest, fs, hp => by
    refine complete_lastCopy hc hg (hts.derives t List.mem_cons_self)
      (fun u hu => hts.derives u (List.mem_cons_of_mem _ hu)) (fun hb => ?_) hf rest fs hp
    have := hts.atMost hb
    rw [List.length_cons] at this
    exact List.length_eq_zero_iff.mp (by omega)
  | left + 2, done, base, _, hg, [t], _, hts, front, hf, rest, fs, hp => by
    have hstop : stop ∈ bypass min stop (done + 1) := mem_bypass.mpr ⟨hts.atLeast, rfl⟩
    rw [ParseTree.tokensAll_singleton] at hf
    exact hc base _ _ hg.left t (hts.derives t List.mem_cons_self) front hf stop (List.mem_cons_of_mem _ hstop) rest
      fs hp
  | left + 2, done, base, _, hg, t :: u :: us, _, hts, front, hf, rest, fs, hp => by
    obtain ⟨first, later, rfl, hf₁, hf₂⟩ := Search.fitsAll_append_iff.mp hf
    have hright := hg.right
    rw [length_layout] at hright
    have hmin := hts.atLeast
    have hlater : Repeats body min (done + 1) (left + 1) unbounded (u :: us) := by
      refine ⟨fun v hv => hts.derives v (List.mem_cons_of_mem _ hv), ?_,
        fun hb => Nat.le_of_succ_le_succ (hts.atMost hb)⟩
      rw [List.length_cons] at hmin
      omega
    have hp' := complete_copies hc (Nat.succ_ne_zero left) hright (List.cons_ne_nil u us) hlater hf₂ rest fs hp
    rw [List.append_assoc]
    exact hc base _ _ hg.left t (hts.derives t List.mem_cons_self) first hf₁ _ List.mem_cons_self _ _ hp'

theorem derives_of_replicate {body : Pattern} : ∀ {n : Nat} {ts : List ParseTree},
    DerivesAll (List.replicate n body) ts → ∀ t ∈ ts, body.Derives t
  | 0, _, .nil => List.forall_mem_nil _
  | _ + 1, _, .cons ht hts => List.forall_mem_cons.mpr ⟨ht, derives_of_replicate hts⟩

/-- Where there may be a repetition, there is a copy. -/
theorem copies_ne_zero (min : Nat) {n : Nat} {max : Bound} (hpos : 0 < n) (h : max.Admits n) : max.copies min ≠ 0 := by
  cases max with
  | finite most => exact Nat.ne_of_gt (Nat.lt_of_lt_of_le hpos (h most rfl))
  | indefinite => exact Nat.ne_of_gt (Nat.lt_of_lt_of_le Nat.one_pos (Nat.le_max_right min 1))

theorem complete_count {body : Pattern} {min : Nat} {max : Bound} (hc : Complete g wildcards body) :
    Complete g wildcards (.count body min max) := by
  intro base out loopEntry hg t ht front hf next hnext rest fs hp
  cases ht with
  | @count _ _ _ ts hmin hmax hts =>
    by_cases hnil : ts = []
    · subst hnil
      cases hf
      have harc : base + 1 ∈ countArcs min (base + 1) (max.copies min) (base + 2) :=
        mem_countArcs.mpr (.inr ⟨rfl, .inr hmin⟩)
      obtain ⟨index, hindex⟩ := List.mem_iff_getElem?.mp harc
      exact Graph.enters_of_brackets (by simp [NodeKind.closedBy]) hg.head hg.tail.head hindex [] rfl []
        (fun _ _ hp => hp) hnext hp
    · have hpos : 0 < ts.length := List.length_pos_iff.mpr hnil
      have hcopies := copies_ne_zero min hpos hmax
      have harc : base + 2 ∈ countArcs min (base + 1) (max.copies min) (base + 2) :=
        mem_countArcs.mpr (.inl ⟨rfl, hcopies⟩)
      obtain ⟨index, hindex⟩ := List.mem_iff_getElem?.mp harc
      have hreps : Repeats body min 0 (max.copies min) max.isIndefinite ts := by
        refine ⟨derives_of_replicate hts, by omega, fun hb => ?_⟩
        cases max with
        | finite most => exact hmax most rfl
        | indefinite => cases hb
      exact Graph.enters_of_brackets (by simp [NodeKind.closedBy]) hg.head hg.tail.head hindex _ rfl front
        (complete_copies hc hcopies hg.tail.tail hnil hreps hf) hnext hp

mutual

/-- **Every tree has a path.** -/
theorem complete : ∀ p : Pattern, Complete g wildcards p
  | .token text => complete_token text
  | .tag value => complete_tag value
  | .rule name body => complete_rule name (complete body)
  | .sequence items => complete_sequence (complete_all items)
  | .alternatives branches => complete_alternatives (complete_all branches)
  | .count body _ _ => complete_count (complete body)

theorem complete_all : ∀ ps : List Pattern, ∀ p ∈ ps, Complete g wildcards p
  | [] => List.forall_mem_nil _
  | p :: ps => List.forall_mem_cons.mpr ⟨complete p, complete_all ps⟩

end

end

end Pattern

end SpeechGrammar
