import SpeechGrammar.Component.Shape
import SpeechGrammar.Proofs.Rereading

/-!
# Splicing sequences

A sequence that is an item of a sequence is written without parentheses, so its items are read as items of the outer
one (`Component.spliced`). Nothing else is lost of a normal component: what is read where it is written is the component
with such sequences spliced in (**`Component.Normal.reread`**). That is normal again, and splicing twice is splicing
once (`Component.spliced_spliced`).
-/

namespace SpeechGrammar

open Jsgf.Reader (oneOrSequence namedComponent splitAtLastDot splitAtLastDot_eq_some splitAtLastDot_append)

namespace Component

/-- What a component is within a sequence: a sequence that is not empty is its items. -/
def inSequence : Component → List Component
  | .sequence (c :: cs) => c :: cs
  | c => [c]

mutual

/-- The component in which every sequence that is an item of a sequence, and is not empty, is replaced by its items. -/
def spliced : Component → Component
  | .token text => .token text
  | .tag value => .tag value
  | .reference r => .reference r
  | .sequence items => .sequence (splicedItems items)
  | .alternatives branches weights => .alternatives (splicedAll branches) weights
  | .count body min max p => .count (spliced body) min max p

/-- The items of a sequence, with those of inner sequences in their places. -/
def splicedItems : List Component → List Component
  | [] => []
  | c :: cs => inSequence (spliced c) ++ splicedItems cs

/-- Several components, each for itself. -/
def splicedAll : List Component → List Component
  | [] => []
  | c :: cs => spliced c :: splicedAll cs

end

variable {c : Component} {cs : List Component}

theorem splicedItems_eq : splicedItems cs = cs.flatMap fun c => c.spliced.inSequence := by
  induction cs with
  | nil => rfl
  | cons c cs ih => rw [splicedItems, ih, List.flatMap_cons]

theorem splicedAll_eq : splicedAll cs = cs.map spliced := by
  induction cs with
  | nil => rfl
  | cons c cs ih => rw [splicedAll, ih, List.map_cons]

theorem inSequence_cases (c : Component) :
    c.inSequence = [c] ∨ ∃ d ds, c = .sequence (d :: ds) ∧ c.inSequence = d :: ds := by
  unfold inSequence
  split
  · exact .inr ⟨_, _, rfl, rfl⟩
  · exact .inl rfl

theorem inSequence_ne_nil (c : Component) : c.inSequence ≠ [] := by
  rcases inSequence_cases c with h | ⟨d, ds, -, h⟩ <;> simp [h]

/-- What a sequence hands on to its items, splicing hands on to them as well. -/
theorem forall_mem_splicedItems {P : Component → Prop} (hseq : ∀ cs, P (.sequence cs) → ∀ d ∈ cs, P d)
    (h : ∀ c ∈ cs, P c.spliced) : ∀ d ∈ splicedItems cs, P d := by
  rw [splicedItems_eq, List.forall_mem_flatMap]
  intro c hc d hd
  rcases inSequence_cases c.spliced with heq | ⟨e, es, hc', heq⟩
  · rw [heq, List.mem_singleton] at hd
    exact hd ▸ h c hc
  · rw [heq] at hd
    exact hseq (e :: es) (hc' ▸ h c hc) d hd

theorem forall_mem_splicedAll {P : Component → Prop} (h : ∀ c ∈ cs, P c.spliced) : ∀ d ∈ splicedAll cs, P d := by
  rw [splicedAll_eq]
  exact List.forall_mem_map.mpr h

theorem length_splicedAll : (splicedAll cs).length = cs.length := by
  rw [splicedAll_eq, List.length_map]

/-! ## Splicing twice -/

/-- There is nothing to splice in the component, and nothing of it to splice into a sequence. -/
def Settled (c : Component) : Prop := c.spliced = c ∧ c.inSequence = [c]

theorem splicedItems_of_settled (h : ∀ c ∈ cs, Settled c) : splicedItems cs = cs := by
  induction cs with
  | nil => rfl
  | cons c cs ih =>
    rw [List.forall_mem_cons] at h
    rw [splicedItems, h.1.1, h.1.2, ih h.2, List.singleton_append]

theorem splicedAll_spliced (h : ∀ c ∈ cs, c.spliced.spliced = c.spliced) :
    splicedAll (splicedAll cs) = splicedAll cs := by
  rw [splicedAll_eq, splicedAll_eq, List.map_map]
  exact List.map_congr_left h

mutual

/-- After splicing there is nothing left to splice, and what a sequence takes over is settled. -/
theorem settled_spliced : ∀ c : Component,
    c.spliced.spliced = c.spliced ∧ ∀ d ∈ c.spliced.inSequence, Settled d
  | .token _ => by simp [spliced, inSequence, Settled]
  | .tag _ => by simp [spliced, inSequence, Settled]
  | .reference _ => by simp [spliced, inSequence, Settled]
  | .sequence items => by
    have hitems : ∀ d ∈ splicedItems items, Settled d := by
      rw [splicedItems_eq]
      intro d hd
      obtain ⟨c, hc, hd⟩ := List.mem_flatMap.mp hd
      exact (settled_splicedAll items c hc).2 d hd
    have hsame : (Component.sequence (splicedItems items)).spliced = .sequence (splicedItems items) := by
      rw [spliced, splicedItems_of_settled hitems]
    refine ⟨hsame, fun d hd => ?_⟩
    rw [spliced] at hd
    rcases inSequence_cases (.sequence (splicedItems items)) with h | ⟨e, es, heq, h⟩
    · rw [h, List.mem_singleton] at hd
      subst hd
      exact ⟨hsame, h⟩
    · rw [h, ← Component.sequence.inj heq] at hd
      exact hitems d hd
  | .alternatives branches weights => by
    have hsame : (Component.alternatives (splicedAll branches) weights).spliced =
        .alternatives (splicedAll branches) weights := by
      rw [spliced, splicedAll_spliced fun c hc => (settled_splicedAll branches c hc).1]
    refine ⟨hsame, fun d hd => ?_⟩
    obtain rfl := List.mem_singleton.mp hd
    exact ⟨hsame, rfl⟩
  | .count body min max p => by
    have hsame : (Component.count body.spliced min max p).spliced = .count body.spliced min max p := by
      rw [spliced, (settled_spliced body).1]
    refine ⟨hsame, fun d hd => ?_⟩
    obtain rfl := List.mem_singleton.mp hd
    exact ⟨hsame, rfl⟩

theorem settled_splicedAll : ∀ cs : List Component, ∀ c ∈ cs,
    c.spliced.spliced = c.spliced ∧ ∀ d ∈ c.spliced.inSequence, Settled d
  | [] => nofun
  | c :: cs => List.forall_mem_cons.mpr ⟨settled_spliced c, settled_splicedAll cs⟩

end

/-- Splicing twice is splicing once. -/
theorem spliced_spliced (c : Component) : c.spliced.spliced = c.spliced := (settled_spliced c).1

/-! ## Normal components -/

theorem length_le_splicedItems (cs : List Component) : cs.length ≤ (splicedItems cs).length := by
  induction cs with
  | nil => simp
  | cons c cs ih =>
    have := List.length_pos_iff.mpr (inSequence_ne_nil c.spliced)
    rw [splicedItems, List.length_append, List.length_cons]
    omega

mutual

/-- Splicing keeps a component normal. -/
theorem Normal.spliced : ∀ {c : Component}, c.Normal → c.spliced.Normal
  | .token _, h => h
  | .tag _, h => h
  | .reference _, h => h
  | .sequence items, h => by
    refine ⟨?_, normalAll_iff.mpr ?_⟩
    · have := length_le_splicedItems items
      have := h.1
      cases items with
      | nil => simp [splicedItems]
      | cons c items => simp only [List.length_cons] at *; omega
    · exact forall_mem_splicedItems (fun _ h => normalAll_iff.mp h.2) (NormalAll.spliced h.2)
  | .alternatives branches none, h => by
    refine ⟨?_, normalAll_iff.mpr (forall_mem_splicedAll (NormalAll.spliced h.2))⟩
    rw [length_splicedAll]
    exact h.1
  | .alternatives branches (some weights), h => by
    refine ⟨by simpa [splicedAll_eq] using h.1, ?_, h.2.2.1,
      normalAll_iff.mpr (forall_mem_splicedAll (NormalAll.spliced h.2.2.2))⟩
    rw [length_splicedAll]
    exact h.2.1
  | .count body _ _ _, h => ⟨h.1, h.2.1, Normal.spliced h.2.2⟩

theorem NormalAll.spliced : ∀ {cs : List Component}, NormalAll cs → ∀ c ∈ cs, c.spliced.Normal
  | [], _ => nofun
  | _ :: _, h => List.forall_mem_cons.mpr ⟨Normal.spliced h.1, NormalAll.spliced h.2⟩

end

/-- A normal component is what its part in a sequence is read as. -/
theorem oneOrSequence_inSequence (h : c.Normal) : oneOrSequence c.inSequence = c := by
  rcases inSequence_cases c with heq | ⟨d, ds, rfl, heq⟩
  · rw [heq]
    rfl
  · rw [heq]
    cases ds with
    | nil => exact absurd rfl h.1
    | cons e ds => rfl

theorem orNull_eq (cs : List Component) : orNull cs = inSequence (.sequence cs) := by
  cases cs <;> rfl

mutual

/-- A normal component is read as the items of what is spliced. -/
theorem Normal.items : ∀ {c : Component}, c.Normal → c.items = c.spliced.inSequence
  | .token _, _ => rfl
  | .tag value, h => by
    have htrim : Text.trim value.toList = value.toList := h
    rw [Component.items, htrim, String.ofList_toList]
    rfl
  | .reference _, _ => rfl
  | .sequence items, h => by
    rw [Component.items, Component.spliced, orNull_eq, NormalAll.items h.2]
  | .alternatives branches none, h => by
    rw [Component.items, NormalAll.rereadAll h.2, choice_plain (by simpa [splicedAll_eq] using h.1)]
    rfl
  | .alternatives branches (some weights), h => by
    rw [Component.items, NormalAll.rereadAll h.2.2.2, choice_weighted (by simpa [splicedAll_eq] using h.1)]
    rfl
  | .count body min max p, h => by
    obtain ⟨hbounds, rfl, hbody⟩ := h
    rw [Component.items, Normal.items hbody, oneOrSequence_inSequence hbody.spliced]
    rcases hbounds with ⟨rfl, rfl⟩ | ⟨rfl, rfl⟩ | ⟨rfl, rfl⟩ <;> rfl

theorem NormalAll.items : ∀ {cs : List Component}, NormalAll cs → itemsAll cs = splicedItems cs
  | [], _ => rfl
  | _ :: _, h => by rw [itemsAll, splicedItems, Normal.items h.1, NormalAll.items h.2]

theorem NormalAll.rereadAll : ∀ {cs : List Component}, NormalAll cs → Component.rereadAll cs = splicedAll cs
  | [], _ => rfl
  | _ :: _, h => by
    rw [Component.rereadAll, splicedAll, Normal.items h.1, oneOrSequence_inSequence h.1.spliced,
      NormalAll.rereadAll h.2]

end

/-- **Where a normal component is written, it is read with its inner sequences spliced in.** -/
theorem Normal.reread (h : c.Normal) : c.reread = c.spliced := by
  rw [Component.reread, h.items, oneOrSequence_inSequence h.spliced]

end Component

/-! ## Components without fault -/

theorem Reference.Normal.readable {r : Reference} (h : r.Normal) (hrule : r.rule ≠ "") : r.Readable := by
  obtain ⟨rule, grammar⟩ := r
  refine ⟨?_, h.chars, ?_⟩
  · cases grammar <;> simp [Reference.inner, hrule]
  · cases grammar with
    | none =>
      obtain ⟨-, hnull, hvoid⟩ := h.plain rfl
      have hsplit : splitAtLastDot rule.toList = none := by
        cases hs : splitAtLastDot rule.toList with
        | none => rfl
        | some parts => exact absurd (by simp [(splitAtLastDot_eq_some hs).1]) h.rule
      simp only [namedComponent, Reference.inner, String.toList_inj, hnull, hvoid, ↓reduceIte, hsplit,
        String.ofList_toList]
    | some grammar =>
      have hdot : '.' ∈ grammar.toList ++ '.' :: rule.toList := by simp
      have hnull : grammar.toList ++ '.' :: rule.toList ≠ "NULL".toList :=
        fun heq => absurd (heq ▸ hdot) (by decide)
      have hvoid : grammar.toList ++ '.' :: rule.toList ≠ "VOID".toList :=
        fun heq => absurd (heq ▸ hdot) (by decide)
      simp only [namedComponent, Reference.inner, hnull, hvoid, ↓reduceIte, splitAtLastDot_append _ h.rule,
        String.ofList_toList]

namespace Component

variable {c : Component}

theorem readable_weights {branches : Nat} {ws : List Single} (h : weightsFault? branches (some ws) = none)
    (hws : ∀ w ∈ ws, w.IsWeight) : ∀ w ∈ ws, w.signed = false ∧ w.isFinite = true := by
  intro w hw
  simp only [weightsFault?] at h
  split at h
  · cases h
  · split at h
    · cases h
    · rename_i hany
      have hfault := List.any_eq_false.mp (Bool.not_eq_true _ ▸ hany) w hw
      simp only [Bool.or_eq_true, Bool.not_eq_true', not_or, Bool.not_eq_false] at hfault
      exact ⟨(hws w hw).1, hfault.1⟩

mutual

/-- A normal component without fault is read as `reread` says. -/
theorem Normal.readable : ∀ {c : Component}, c.Normal → c.fault? = none → c.Readable
  | .token _, _, _ => trivial
  | .tag _, _, _ => trivial
  | .reference r, h, hfault => by
    refine Reference.Normal.readable h fun hrule => ?_
    simp [fault?, hrule] at hfault
  | .sequence _, h, hfault => NormalAll.readable h.2 hfault
  | .alternatives branches none, h, hfault => by
    simp only [fault?, Option.or_eq_none_iff] at hfault
    exact ⟨nofun, NormalAll.readable h.2 hfault.2⟩
  | .alternatives branches (some weights), h, hfault => by
    simp only [fault?, Option.or_eq_none_iff] at hfault
    refine ⟨?_, NormalAll.readable h.2.2.2 hfault.2⟩
    rintro _ ⟨⟩
    exact ⟨h.2.1, readable_weights hfault.1 h.2.2.1⟩
  | .count body _ _ _, h, hfault => by
    simp only [fault?, Option.or_eq_none_iff] at hfault
    exact Normal.readable (c := body) h.2.2 hfault.2.2

theorem NormalAll.readable : ∀ {cs : List Component}, NormalAll cs → faultAmong? cs = none → ReadableAll cs
  | [], _, _ => trivial
  | _ :: _, h, hfault => by
    simp only [faultAmong?, Option.or_eq_none_iff] at hfault
    exact ⟨Normal.readable h.1 hfault.1, NormalAll.readable h.2 hfault.2⟩

end

mutual

/-- Splicing makes no fault. -/
theorem fault?_spliced : ∀ {c : Component}, c.fault? = none → c.spliced.fault? = none
  | .token _, h => h
  | .tag _, h => h
  | .reference _, h => h
  | .sequence _, h =>
    faultAmong?_eq_none_iff.mpr
      (forall_mem_splicedItems (fun _ h => faultAmong?_eq_none_iff.mp h) (faultAmong?_spliced h))
  | .alternatives branches weights, h => by
    simp only [fault?, Option.or_eq_none_iff] at h
    simp only [Component.spliced, fault?, Option.or_eq_none_iff, length_splicedAll]
    exact ⟨h.1, faultAmong?_eq_none_iff.mpr (forall_mem_splicedAll (faultAmong?_spliced h.2))⟩
  | .count body _ _ _, h => by
    simp only [fault?, Option.or_eq_none_iff] at h
    simp only [Component.spliced, fault?, Option.or_eq_none_iff]
    exact ⟨h.1, h.2.1, fault?_spliced (c := body) h.2.2⟩

theorem faultAmong?_spliced : ∀ {cs : List Component}, faultAmong? cs = none → ∀ c ∈ cs, c.spliced.fault? = none
  | [], _ => nofun
  | _ :: _, h => by
    simp only [faultAmong?, Option.or_eq_none_iff] at h
    exact List.forall_mem_cons.mpr ⟨fault?_spliced h.1, faultAmong?_spliced h.2⟩

end

end Component

end SpeechGrammar
