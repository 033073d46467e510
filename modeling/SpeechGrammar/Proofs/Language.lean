import Mathlib.Data.List.Forall2
import SpeechGrammar.Graph.Environment
import SpeechGrammar.Match.ParseTree
import SpeechGrammar.Text.LowerCase

/-!
# The language of a component

What a component stands for, said without graphs and without a search. `Environment.Accepts` gives the lists of spoken
words that fit a component, `Environment.Derives` the parse trees that can be made of it. The two agree: the words that
fit are those that fit the tokens of a tree (**`accepts_iff_exists_derives`**).
-/

namespace SpeechGrammar

/-- A spoken word fits a word of a grammar if both are the same in lower case, or if it is a wildcard and wildcards are
taken. -/
def Fits (wildcards : Bool) (word spoken : String) : Prop :=
  Text.lower word = Text.lower spoken ∨ wildcards = true ∧ (spoken = "%" ∨ spoken = "*")

/-- So many repetitions are not too many. -/
def Bound.Admits (max : Bound) (n : Nat) : Prop := ∀ most, max = .finite most → n ≤ most

/-- Two lists that fit a list in two parts. -/
theorem forall₂_append_iff {α β : Type} {R : α → β → Prop} : ∀ {as bs : List α} {cs : List β},
    List.Forall₂ R (as ++ bs) cs ↔ ∃ first rest, cs = first ++ rest ∧ List.Forall₂ R as first ∧ List.Forall₂ R bs rest
  | [], bs, cs => by
    refine ⟨fun h => ⟨[], cs, rfl, .nil, h⟩, ?_⟩
    rintro ⟨first, rest, rfl, h₁, h₂⟩
    cases h₁
    exact h₂
  | a :: as, bs, cs => by
    constructor
    · rintro (_ | @⟨_, c, _, cs, hac, h⟩)
      obtain ⟨first, rest, rfl, h₁, h₂⟩ := forall₂_append_iff.mp h
      exact ⟨c :: first, rest, rfl, .cons hac h₁, h₂⟩
    · rintro ⟨first, rest, rfl, h₁, h₂⟩
      cases h₁ with
      | cons hac h₁ => exact .cons hac (forall₂_append_iff.mpr ⟨_, _, rfl, h₁, h₂⟩)

/-- What stands at the same place in two lists that fit. -/
theorem forall₂_getElem?_right {α β : Type} {R : α → β → Prop} {as : List α} {bs : List β} {i : Nat} {b : β}
    (h : List.Forall₂ R as bs) (hb : bs[i]? = some b) : ∃ a, as[i]? = some a ∧ R a b := by
  induction h generalizing i with
  | nil => simp at hb
  | cons hab _ ih =>
    cases i with
    | zero => simp only [List.getElem?_cons_zero, Option.some.injEq] at hb; subst hb; exact ⟨_, rfl, hab⟩
    | succ i => exact ih (by simpa using hb)

namespace Environment

/-- The rule that a reference leads to from a rule of the grammar `owner`. -/
def LeadsTo (env : Environment) (owner : String) (r : Reference) (target : String) (rule : Rule) : Prop :=
  target = r.grammar.getD owner ∧ ∃ s, env.grammar? target = some s ∧ s.rule? r.rule = some rule

section

variable (env : Environment) (wildcards : Bool)

mutual

/-- The spoken words fit a component of a rule of the grammar `owner`. -/
inductive Accepts : (owner : String) → Component → List String → Prop
  | token {owner text spoken} :
      List.Forall₂ (Fits wildcards) (Text.words text) spoken → Accepts owner (.token text) spoken
  | tag {owner value} : Accepts owner (.tag value) []
  | reference {owner r target rule spoken} :
      env.LeadsTo owner r target rule → Accepts target rule.body spoken → Accepts owner (.reference r) spoken
  | sequence {owner items spoken} : AcceptsAll owner items spoken → Accepts owner (.sequence items) spoken
  | alternatives {owner branches weights branch spoken} :
      branch ∈ branches → Accepts owner branch spoken → Accepts owner (.alternatives branches weights) spoken
  | count {owner body min max probability n spoken} :
      min ≤ n → max.Admits n → AcceptsAll owner (List.replicate n body) spoken →
      Accepts owner (.count body min max probability) spoken

/-- The spoken words fit the components one after the other. -/
inductive AcceptsAll : (owner : String) → List Component → List String → Prop
  | nil {owner} : AcceptsAll owner [] []
  | cons {owner c cs first rest} :
      Accepts owner c first → AcceptsAll owner cs rest → AcceptsAll owner (c :: cs) (first ++ rest)

end

mutual

/-- The tree is one way to pass a component of a rule of the grammar `owner`. -/
inductive Derives : (owner : String) → Component → ParseTree → Prop
  | token {owner text} : Derives owner (.token text) (.token text)
  | tag {owner value} : Derives owner (.tag value) (.tag value)
  | reference {owner r target rule t} :
      env.LeadsTo owner r target rule → Derives target rule.body t → Derives owner (.reference r) (.rule rule.name t)
  | sequence {owner items ts} : DerivesAll owner items ts → Derives owner (.sequence items) (.sequence ts)
  | alternatives {owner branches weights index branch t} :
      branches[index]? = some branch → Derives owner branch t →
      Derives owner (.alternatives branches weights) (.alternative index t)
  | count {owner body min max probability ts} :
      min ≤ ts.length → max.Admits ts.length → DerivesAll owner (List.replicate ts.length body) ts →
      Derives owner (.count body min max probability) (.sequence ts)

/-- The trees are ways to pass the components, one for each, in order. -/
inductive DerivesAll : (owner : String) → List Component → List ParseTree → Prop
  | nil {owner} : DerivesAll owner [] []
  | cons {owner c cs t ts} : Derives owner c t → DerivesAll owner cs ts → DerivesAll owner (c :: cs) (t :: ts)

end

end

variable {env : Environment} {wildcards : Bool}

/-- A reference leads to one rule at most. -/
theorem LeadsTo.unique {owner : String} {r : Reference} {target target' : String} {rule rule' : Rule}
    (h : env.LeadsTo owner r target rule) (h' : env.LeadsTo owner r target' rule') :
    target = target' ∧ rule = rule' := by
  obtain ⟨rfl, s, hs, hr⟩ := h
  obtain ⟨rfl, s', hs', hr'⟩ := h'
  rw [hs, Option.some.injEq] at hs'
  subst hs'
  rw [hr, Option.some.injEq] at hr'
  exact ⟨rfl, hr'⟩

theorem DerivesAll.length_eq : ∀ {owner : String} {cs : List Component} {ts : List ParseTree},
    env.DerivesAll owner cs ts → cs.length = ts.length
  | _, _, _, .nil => rfl
  | _, _, _, .cons _ h => by simp [h.length_eq]

/-! ## Words and trees -/

mutual

theorem Accepts.exists_derives : ∀ {owner : String} {c : Component} {spoken : List String},
    env.Accepts wildcards owner c spoken →
    ∃ t, env.Derives owner c t ∧ List.Forall₂ (Fits wildcards) t.tokens spoken
  | _, _, _, .token h => ⟨_, .token, h⟩
  | _, _, _, .tag => ⟨_, .tag, .nil⟩
  | _, _, _, .reference hr h => by
    obtain ⟨t, ht, hw⟩ := h.exists_derives
    exact ⟨_, .reference hr ht, hw⟩
  | _, _, _, .sequence h => by
    obtain ⟨ts, hts, hw⟩ := h.exists_derivesAll
    exact ⟨_, .sequence hts, hw⟩
  | _, _, _, .alternatives hb h => by
    obtain ⟨t, ht, hw⟩ := h.exists_derives
    obtain ⟨i, hi⟩ := List.mem_iff_getElem?.mp hb
    exact ⟨_, .alternatives hi ht, hw⟩
  | _, _, _, .count (n := n) hmin hmax h => by
    obtain ⟨ts, hts, hw⟩ := h.exists_derivesAll
    have hn : n = ts.length := by simpa using hts.length_eq
    subst hn
    exact ⟨_, .count hmin hmax hts, hw⟩

theorem AcceptsAll.exists_derivesAll : ∀ {owner : String} {cs : List Component} {spoken : List String},
    env.AcceptsAll wildcards owner cs spoken →
    ∃ ts, env.DerivesAll owner cs ts ∧ List.Forall₂ (Fits wildcards) (ParseTree.tokensAll ts) spoken
  | _, _, _, .nil => ⟨[], .nil, .nil⟩
  | _, _, _, .cons h hs => by
    obtain ⟨t, ht, hw⟩ := h.exists_derives
    obtain ⟨ts, hts, hws⟩ := hs.exists_derivesAll
    exact ⟨t :: ts, .cons ht hts, forall₂_append_iff.mpr ⟨_, _, rfl, hw, hws⟩⟩

end

mutual

theorem Derives.accepts : ∀ {owner : String} {c : Component} {t : ParseTree} {spoken : List String},
    env.Derives owner c t → List.Forall₂ (Fits wildcards) t.tokens spoken → env.Accepts wildcards owner c spoken
  | _, _, _, _, .token, hw => .token hw
  | _, _, _, _, .tag, hw => by cases hw; exact .tag
  | _, _, _, _, .reference hr h, hw => .reference hr (h.accepts hw)
  | _, _, _, _, .sequence h, hw => .sequence (h.acceptsAll hw)
  | _, _, _, _, .alternatives hi h, hw => .alternatives (List.mem_of_getElem? hi) (h.accepts hw)
  | _, _, _, _, .count hmin hmax h, hw => .count hmin hmax (h.acceptsAll hw)

theorem DerivesAll.acceptsAll : ∀ {owner : String} {cs : List Component} {ts : List ParseTree} {spoken : List String},
    env.DerivesAll owner cs ts → List.Forall₂ (Fits wildcards) (ParseTree.tokensAll ts) spoken →
    env.AcceptsAll wildcards owner cs spoken
  | _, _, _, _, .nil, hw => by cases hw; exact .nil
  | _, _, _, _, .cons h hs, hw => by
    obtain ⟨first, rest, rfl, h₁, h₂⟩ := forall₂_append_iff.mp hw
    exact .cons (h.accepts h₁) (hs.acceptsAll h₂)

end

/-- **The words of a component** are those that fit the tokens of one of its trees. -/
theorem accepts_iff_exists_derives {owner : String} {c : Component} {spoken : List String} :
    env.Accepts wildcards owner c spoken ↔
      ∃ t, env.Derives owner c t ∧ List.Forall₂ (Fits wildcards) t.tokens spoken :=
  ⟨Accepts.exists_derives, fun ⟨_, h, hw⟩ => h.accepts hw⟩

end Environment

end SpeechGrammar
